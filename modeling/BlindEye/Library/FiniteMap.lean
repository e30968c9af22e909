import Mathlib

namespace FiniteMap

variable {K V : Type} [DecidableEq K]

def eraseAll (m : Finmap fun _ : K => V) (keys : List K) : Finmap fun _ : K => V :=
  keys.foldl (fun m k => m.erase k) m

def insertAll (m : Finmap fun _ : K => V) (entries : List (K × V)) : Finmap fun _ : K => V :=
  entries.foldl (fun m entry => m.insert entry.1 entry.2) m

def total (f : V → Nat) (m : Finmap fun _ : K => V) : Nat := (m.entries.map fun entry => f entry.2).sum

variable {m : Finmap fun _ : K => V} {f : V → Nat}

theorem lookup_eraseAll_of_mem (spent : k ∈ keys) : (eraseAll m keys).lookup k = none := by
  induction keys generalizing m with
  | nil => cases spent
  | cons first rest ih =>
    change (eraseAll (m.erase first) rest).lookup k = none
    by_cases later : k ∈ rest
    · exact ih later
    · obtain rfl := (List.mem_cons.mp spent).resolve_right later
      clear ih spent
      induction rest generalizing m with
      | nil => exact Finmap.lookup_erase _ _
      | cons next rest ih =>
        change (eraseAll ((m.erase k).erase next) rest).lookup k = none
        rw [Finmap.erase_erase]
        exact ih (fun inside => later (List.mem_cons_of_mem _ inside))

theorem lookup_eraseAll_of_notMem (kept : k ∉ keys) : (eraseAll m keys).lookup k = m.lookup k := by
  induction keys generalizing m with
  | nil => rfl
  | cons first rest ih =>
    rw [List.mem_cons,not_or] at kept
    change (eraseAll (m.erase first) rest).lookup k = _
    rw [ih kept.2,Finmap.lookup_erase_ne kept.1]

theorem mem_eraseAll : k ∈ eraseAll m keys ↔ k ∈ m ∧ k ∉ keys := by
  rw [← Finmap.lookup_isSome,← Finmap.lookup_isSome]
  by_cases spent : k ∈ keys
  · simp [lookup_eraseAll_of_mem spent,spent]
  · simp [lookup_eraseAll_of_notMem spent,spent]

theorem mem_insertAll {entries : List (K × V)} :
    k ∈ insertAll m entries ↔ k ∈ m ∨ k ∈ entries.map Prod.fst := by
  induction entries generalizing m with
  | nil => simp [insertAll]
  | cons entry rest ih =>
    change k ∈ insertAll (m.insert entry.1 entry.2) rest ↔ _
    rw [ih,Finmap.mem_insert,List.map_cons,List.mem_cons]
    tauto

theorem lookup_insertAll_of_notMem {entries : List (K × V)} (other : k ∉ entries.map Prod.fst) :
    (insertAll m entries).lookup k = m.lookup k := by
  induction entries generalizing m with
  | nil => rfl
  | cons entry rest ih =>
    rw [List.map_cons,List.mem_cons,not_or] at other
    change (insertAll (m.insert entry.1 entry.2) rest).lookup k = _
    rw [ih other.2,Finmap.lookup_insert_of_ne _ other.1]

theorem lookup_insertAll_of_mem {entries : List (K × V)} (distinct : (entries.map Prod.fst).Nodup)
    (member : entry ∈ entries) : (insertAll m entries).lookup entry.1 = some entry.2 := by
  induction entries generalizing m with
  | nil => cases member
  | cons first rest ih =>
    obtain ⟨once,distinct⟩ := List.nodup_cons.mp distinct
    rcases List.mem_cons.mp member with rfl | later
    · exact (lookup_insertAll_of_notMem once).trans (Finmap.lookup_insert _)
    · exact ih distinct later

theorem insert_erase (k : K) (v : V) : (m.erase k).insert k v = m.insert k v := by
  apply Finmap.ext_lookup
  intro x
  by_cases equal : x = k
  · subst equal
    rw [Finmap.lookup_insert,Finmap.lookup_insert]
  · rw [Finmap.lookup_insert_of_ne _ equal,Finmap.lookup_insert_of_ne _ equal,Finmap.lookup_erase_ne equal]

theorem insert_stored (stored : m.lookup k = some v) : m.insert k v = m := by
  apply Finmap.ext_lookup
  intro x
  by_cases equal : x = k
  · subst equal
    rw [Finmap.lookup_insert,stored]
  · rw [Finmap.lookup_insert_of_ne _ equal]

theorem total_insert_fresh (fresh : k ∉ m) : total f (m.insert k v) = total f m + f v := by
  rw [total,Finmap.entries_insert_of_notMem fresh,Multiset.map_cons,Multiset.sum_cons,Nat.add_comm]
  rfl

theorem total_erase (stored : m.lookup k = some v) : total f (m.erase k) + f v = total f m := by
  rw [← total_insert_fresh Finmap.notMem_erase_self,insert_erase,insert_stored stored]

def valueAt (f : V → Nat) (m : Finmap fun _ : K => V) (k : K) : Nat := ((m.lookup k).map f).getD 0

-- What the key held is lost.
theorem total_insert : total f (m.insert k v) + valueAt f m k = total f m + f v := by
  by_cases present : k ∈ m
  · obtain ⟨old,stored⟩ := Finmap.mem_iff.mp present
    have erased := total_erase (f := f) stored
    have held : valueAt f m k = f old := by simp [valueAt,stored]
    rw [← insert_erase,total_insert_fresh Finmap.notMem_erase_self,held]
    omega
  · have held : valueAt f m k = 0 := by simp [valueAt,Finmap.lookup_eq_none.mpr present]
    rw [total_insert_fresh present,held]
    rfl

theorem total_eraseAll (distinct : keys.Nodup) (present : ∀ k ∈ keys, k ∈ m) :
    total f (eraseAll m keys) + (keys.map (valueAt f m)).sum = total f m := by
  induction keys generalizing m with
  | nil => simp [eraseAll]
  | cons first rest ih =>
    obtain ⟨fresh,distinct⟩ := List.nodup_cons.mp distinct
    obtain ⟨v,stored⟩ := Finmap.mem_iff.mp (present first (List.mem_cons_self))
    have away : ∀ k ∈ rest, k ≠ first := fun k member equal => fresh (equal ▸ member)
    have unchanged : rest.map (valueAt f (m.erase first)) = rest.map (valueAt f m) :=
      List.map_congr_left fun k member => by rw [valueAt,valueAt,Finmap.lookup_erase_ne (away k member)]
    have later := ih (m := m.erase first) distinct fun k member =>
      Finmap.mem_erase.mpr ⟨away k member,present k (List.mem_cons_of_mem _ member)⟩
    have erased := total_erase (f := f) stored
    have here : valueAt f m first = f v := by simp [valueAt,stored]
    change total f (eraseAll (m.erase first) rest) + _ = _
    rw [List.map_cons,List.sum_cons,← unchanged,here]
    omega

-- What the keys held when their entries were inserted one after the other.
def replaced (f : V → Nat) (m : Finmap fun _ : K => V) : List (K × V) → Nat
  | [] => 0
  | entry :: rest => valueAt f m entry.1 + replaced f (m.insert entry.1 entry.2) rest

theorem total_insertAll (entries : List (K × V)) :
    total f (insertAll m entries) + replaced f m entries = total f m + (entries.map fun entry => f entry.2).sum := by
  induction entries generalizing m with
  | nil => rfl
  | cons entry rest ih =>
    have later := ih (m := m.insert entry.1 entry.2)
    have here := total_insert (f := f) (m := m) (k := entry.1) (v := entry.2)
    change total f (insertAll (m.insert entry.1 entry.2) rest) + (valueAt f m entry.1 + replaced f _ rest) = _
    rw [List.map_cons,List.sum_cons]
    omega

-- Each key is absent at the moment its entry is inserted.
def FreshAll (m : Finmap fun _ : K => V) : List (K × V) → Prop
  | [] => True
  | entry :: rest => entry.1 ∉ m ∧ FreshAll (m.insert entry.1 entry.2) rest

theorem freshAll_exact {entries : List (K × V)} :
    FreshAll m entries ↔ (entries.map Prod.fst).Nodup ∧ ∀ k ∈ entries.map Prod.fst, k ∉ m := by
  induction entries generalizing m with
  | nil => simp [FreshAll]
  | cons entry rest ih =>
    simp only [FreshAll,ih,List.map_cons,List.nodup_cons,Finmap.mem_insert,List.forall_mem_cons,not_or]
    constructor
    · intro fresh
      obtain ⟨here,distinct,away⟩ := fresh
      exact ⟨⟨fun again => (away _ again).1 rfl,distinct⟩,here,fun k member => (away k member).2⟩
    · intro fresh
      obtain ⟨⟨once,distinct⟩,here,away⟩ := fresh
      exact ⟨here,distinct,fun k member => ⟨fun equal => once (equal ▸ member),away k member⟩⟩

theorem replaced_fresh {entries : List (K × V)} (fresh : FreshAll m entries) : replaced f m entries = 0 := by
  induction entries generalizing m with
  | nil => rfl
  | cons entry rest ih =>
    have held : valueAt f m entry.1 = 0 := by simp [valueAt,Finmap.lookup_eq_none.mpr fresh.1]
    rw [replaced,held,ih fresh.2]

omit [DecidableEq K] in
theorem total_one (m : Finmap fun _ : K => V) : total (fun _ => 1) m = m.keys.card := by
  have map : (m.entries.map fun _ => 1).sum = m.entries.card := by simp
  rw [total,map,← Multiset.card_map Sigma.fst]
  rfl

theorem card_eraseAll (distinct : keys.Nodup) (present : ∀ k ∈ keys, k ∈ m) :
    (eraseAll m keys).keys.card + keys.length = m.keys.card := by
  have ones : (keys.map (valueAt (fun _ => 1) m)).sum = keys.length := by
    have constant : ∀ k ∈ keys, valueAt (fun _ => 1) m k = 1 := fun k member => by
      obtain ⟨v,stored⟩ := Finmap.mem_iff.mp (present k member)
      simp [valueAt,stored]
    rw [List.map_congr_left constant]
    simp
  rw [← total_one,← total_one,← total_eraseAll (f := fun _ => 1) distinct present,ones]

theorem card_insertAll_fresh {entries : List (K × V)} (fresh : FreshAll m entries) :
    (insertAll m entries).keys.card = m.keys.card + entries.length := by
  have added := total_insertAll (f := fun _ => 1) (m := m) entries
  rw [replaced_fresh fresh] at added
  rw [← total_one,← total_one]
  simpa using added

-- What an insertion of entries leaves under a key: the last of them, or the old value.
theorem lookup_insertAll (entries : List (K × V)) (k : K) :
    (insertAll m entries).lookup k = ((insertAll ∅ entries).lookup k).or (m.lookup k) := by
  induction entries using List.reverseRecOn with
  | nil => simp [insertAll]
  | append_singleton entries entry ih =>
    rw [insertAll,insertAll,List.foldl_append,List.foldl_append]
    change ((insertAll m entries).insert entry.1 entry.2).lookup k =
      (((insertAll ∅ entries).insert entry.1 entry.2).lookup k).or (m.lookup k)
    by_cases equal : k = entry.1
    · subst equal
      rw [Finmap.lookup_insert,Finmap.lookup_insert]
      rfl
    · rw [Finmap.lookup_insert_of_ne _ equal,Finmap.lookup_insert_of_ne _ equal]
      exact ih

-- What an insertion leaves under a key is what it put there or what was there.
theorem lookup_insert_cases (stored : (m.insert key w).lookup k = some v) :
    k = key ∧ w = v ∨ k ≠ key ∧ m.lookup k = some v := by
  by_cases same : k = key
  · subst same
    exact .inl ⟨rfl,Option.some.inj ((Finmap.lookup_insert _).symm.trans stored)⟩
  · exact .inr ⟨same,(Finmap.lookup_insert_of_ne _ same).symm.trans stored⟩

theorem lookup_erase_some : (m.erase key).lookup k = some v ↔ k ≠ key ∧ m.lookup k = some v := by
  by_cases same : k = key
  · subst same
    simp
  · rw [Finmap.lookup_erase_ne same]
    exact (and_iff_right same).symm

theorem entry_of_insertAll {entries : List (K × V)} (found : (insertAll ∅ entries).lookup k = some v) :
    (k,v) ∈ entries := by
  induction entries using List.reverseRecOn with
  | nil => cases found
  | append_singleton entries entry ih =>
    rw [insertAll,List.foldl_append] at found
    rcases lookup_insert_cases found with ⟨rfl,rfl⟩ | ⟨_,before⟩
    · exact List.mem_append_right _ (List.mem_singleton_self _)
    · exact List.mem_append_left _ (ih before)

theorem lookup_insertAll_map {W : Type} (g : V → W) (entries : List (K × V)) (k : K) :
    (insertAll ∅ (entries.map fun entry => (entry.1,g entry.2))).lookup k = ((insertAll ∅ entries).lookup k).map g := by
  induction entries using List.reverseRecOn with
  | nil => rfl
  | append_singleton entries entry ih =>
    rw [List.map_append,insertAll,insertAll,List.foldl_append,List.foldl_append]
    change ((insertAll ∅ (entries.map fun entry => (entry.1,g entry.2))).insert entry.1 (g entry.2)).lookup k =
      (((insertAll ∅ entries).insert entry.1 entry.2).lookup k).map g
    by_cases equal : k = entry.1
    · subst equal
      rw [Finmap.lookup_insert,Finmap.lookup_insert]
      rfl
    · rw [Finmap.lookup_insert_of_ne _ equal,Finmap.lookup_insert_of_ne _ equal]
      exact ih

omit [DecidableEq K] in
theorem any_entries {test : K → V → Bool} :
    m.any test = true ↔ ∃ entry ∈ m.entries, test entry.1 entry.2 = true := by
  have general : ∀ (entries : List (Sigma fun _ : K => V)) (seen : Bool),
      entries.foldl (fun seen entry => seen || test entry.1 entry.2) seen = true ↔
        seen = true ∨ ∃ entry ∈ entries, test entry.1 entry.2 = true := by
    intro entries
    induction entries with
    | nil => simp
    | cons entry rest ih =>
      intro seen
      rw [List.foldl_cons,ih,Bool.or_eq_true,List.exists_mem_cons_iff,or_assoc]
  rcases m with ⟨entries,distinct⟩
  induction entries using Quotient.inductionOn with
  | h entries =>
    change entries.foldl _ false = true ↔ ∃ entry ∈ entries, _
    rw [general]
    simp

theorem any_exact {test : K → V → Bool} : m.any test = true ↔ ∃ k v, m.lookup k = some v ∧ test k v = true := by
  rw [any_entries]
  constructor
  · intro ⟨⟨k,v⟩,member,passes⟩
    exact ⟨k,v,Finmap.lookup_eq_some_iff.mpr member,passes⟩
  · intro ⟨k,v,stored,passes⟩
    exact ⟨⟨k,v⟩,Finmap.lookup_eq_some_iff.mp stored,passes⟩

def retain (m : Finmap fun _ : K => V) (keep : K → V → Bool) : Finmap fun _ : K => V :=
  ⟨m.entries.filter fun entry => keep entry.1 entry.2,
    Multiset.nodup_keys.mp (Multiset.nodup_of_le (Multiset.map_le_map (Multiset.filter_le _ _)) m.nodupKeys.nodup_keys)⟩

theorem lookup_retain {keep : K → V → Bool} :
    (retain m keep).lookup k = some v ↔ m.lookup k = some v ∧ keep k v = true := by
  rw [Finmap.lookup_eq_some_iff,Finmap.lookup_eq_some_iff]
  exact Multiset.mem_filter

omit [DecidableEq K] in
theorem card_retain_le {keep : K → V → Bool} : (retain m keep).keys.card ≤ m.keys.card :=
  Multiset.card_le_card (Multiset.map_le_map (Multiset.filter_le _ _))

theorem card_insert : (m.insert k v).keys.card = if k ∈ m then m.keys.card else m.keys.card + 1 := by
  have grown : (m.insert k v).keys = insert k m.keys := by
    ext x
    rw [Finset.mem_insert,Finmap.mem_keys,Finmap.mem_keys,Finmap.mem_insert]
  rw [grown,Finset.card_insert_eq_ite]
  simp only [Finmap.mem_keys]

theorem card_erase_le : (m.erase k).keys.card ≤ m.keys.card := by
  apply Finset.card_le_card
  intro x member
  exact Finmap.mem_keys.mpr (Finmap.mem_erase.mp (Finmap.mem_keys.mp member)).2

-- An order in which a map may be walked.
def Yields (m : Finmap fun _ : K => V) (values : List V) : Prop :=
  (values : Multiset V) = m.entries.map fun entry => entry.2

instance [DecidableEq V] {values : List V} : Decidable (Yields m values) :=
  inferInstanceAs (Decidable ((values : Multiset V) = _))

theorem yields_exact {values : List V} (order : Yields m values) : v ∈ values ↔ ∃ k, m.lookup k = some v := by
  have held : v ∈ values ↔ v ∈ m.entries.map fun entry => entry.2 := by
    rw [← order]
    exact Multiset.mem_coe.symm
  rw [held,Multiset.mem_map]
  constructor
  · intro inside
    obtain ⟨⟨k,v⟩,inside,rfl⟩ := inside
    exact ⟨k,Finmap.lookup_eq_some_iff.mpr inside⟩
  · intro stored
    obtain ⟨k,stored⟩ := stored
    exact ⟨⟨k,v⟩,Finmap.lookup_eq_some_iff.mp stored,rfl⟩

theorem insert_yields {values : List V} (fresh : k ∉ m) (order : Yields m values) :
    Yields (m.insert k v) (v :: values) := by
  rw [Yields,Finmap.entries_insert_of_notMem fresh,Multiset.map_cons,← order]
  rfl

-- Values that carry their own key are yielded with different keys.
theorem yields_distinct {values : List V} {key : V → K} (keyed : ∀ k v, m.lookup k = some v → key v = k)
    (order : Yields m values) : (values.map key).Nodup := by
  have keys : ((values.map key : List K) : Multiset K) = m.entries.map Sigma.fst := by
    rw [← Multiset.map_coe,order,Multiset.map_map]
    apply Multiset.map_congr rfl
    intro ⟨k,v⟩ inside
    exact keyed k v (Finmap.lookup_eq_some_iff.mpr inside)
  rw [← Multiset.coe_nodup,keys]
  exact m.nodupKeys.nodup_keys

-- An order in which a map may be walked with its keys.
def Lists (m : Finmap fun _ : K => V) (entries : List (K × V)) : Prop :=
  (entries : Multiset (K × V)) = m.entries.map fun entry => (entry.1,entry.2)

instance [DecidableEq V] {entries : List (K × V)} : Decidable (Lists m entries) :=
  inferInstanceAs (Decidable ((entries : Multiset (K × V)) = _))

theorem lists_exact {entries : List (K × V)} (order : Lists m entries) :
    (k,v) ∈ entries ↔ m.lookup k = some v := by
  rw [← Multiset.mem_coe,order,Multiset.mem_map,Finmap.lookup_eq_some_iff]
  constructor
  · rintro ⟨⟨k,v⟩,inside,equal⟩
    cases equal
    exact inside
  · intro inside
    exact ⟨⟨k,v⟩,inside,rfl⟩

omit [DecidableEq K] in
theorem lists_distinct {entries : List (K × V)} (order : Lists m entries) : (entries.map Prod.fst).Nodup := by
  have keys : ((entries.map Prod.fst : List K) : Multiset K) = m.entries.map Sigma.fst := by
    rw [← Multiset.map_coe,order,Multiset.map_map]
    rfl
  rw [← Multiset.coe_nodup,keys]
  exact m.nodupKeys.nodup_keys

-- A map that is walked and filled again in any order is the same map.
theorem insertAll_lists {entries : List (K × V)} (order : Lists m entries) : insertAll ∅ entries = m := by
  apply Finmap.ext_lookup
  intro k
  cases stored : m.lookup k with
  | none =>
    have absent : k ∉ entries.map Prod.fst := by
      intro member
      obtain ⟨⟨key,v⟩,inside,rfl⟩ := List.mem_map.mp member
      rw [(lists_exact order).mp inside] at stored
      cases stored
    rw [lookup_insertAll_of_notMem absent,Finmap.lookup_empty]
  | some v => exact lookup_insertAll_of_mem (lists_distinct order) ((lists_exact order).mpr stored)

-- The entry of the key is modified, or a fresh one is inserted.
def modifyOr (m : Finmap fun _ : K => V) (k : K) (modify : V → V) (fresh : V) : Finmap fun _ : K => V :=
  m.insert k (((m.lookup k).map modify).getD fresh)

-- Items that are gathered under their keys meet only the items of the same key.
theorem lookup_gathered {A : Type} (key : A → K) (merge : V → A → V) (fresh : A → V) (items : List A) (k : K) :
    (items.foldl (fun m a => modifyOr m (key a) (fun v => merge v a) (fresh a)) ∅).lookup k =
      (items.filter fun a => key a = k).foldl (fun held a => some ((held.map fun v => merge v a).getD (fresh a)))
        none := by
  induction items using List.reverseRecOn with
  | nil => rfl
  | append_singleton items last ih =>
    rw [List.foldl_append,List.filter_append,List.foldl_append,← ih]
    simp only [List.foldl_cons,List.foldl_nil,modifyOr]
    by_cases same : key last = k
    · subst same
      simp
    · rw [Finmap.lookup_insert_of_ne _ (Ne.symm same)]
      simp [same]

end FiniteMap
