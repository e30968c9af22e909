import BlindEye.Library.FiniteMap

namespace SpendHistory
open FiniteMap

variable {K V T : Type}

-- Items that consume keys of a map and then make new entries in it.
def post [DecidableEq K] (spends : T → List K) (creates : T → List (K × V)) (m : Finmap fun _ : K => V) (t : T) :
    Finmap fun _ : K => V := insertAll (eraseAll m (spends t)) (creates t)

def made (creates : T → List (K × V)) (t : T) : List K := (creates t).map Prod.fst

inductive History [DecidableEq K] (spends : T → List K) (creates : T → List (K × V)) :
    List T → (Finmap fun _ : K => V) → Prop where
  | nil : History spends creates [] ∅
  | post : History spends creates done m → (spends t).Nodup → (∀ k ∈ spends t, k ∈ m) →
      History spends creates (done ++ [t]) (post spends creates m t)

-- The sum of a measure of the items, each taken at the map that the item finds.
def along [DecidableEq K] (spends : T → List K) (creates : T → List (K × V))
    (measure : (Finmap fun _ : K => V) → T → Nat) (m : Finmap fun _ : K => V) : List T → Nat
  | [] => 0
  | t :: rest => measure m t + along spends creates measure (post spends creates m t) rest

-- No item makes a key that an earlier item made.
def Separate (creates : T → List (K × V)) (items : List T) : Prop :=
  items.Pairwise fun earlier later => ∀ k ∈ made creates earlier, k ∉ made creates later

variable {spends : T → List K} {creates : T → List (K × V)} {done later : List T} {t : T}

theorem Separate.init (separate : Separate creates (done ++ later)) : Separate creates done :=
  (List.pairwise_append.mp separate).1

theorem Separate.last (separate : Separate creates (done ++ [t])) :
    ∀ earlier ∈ done, ∀ k ∈ made creates earlier, k ∉ made creates t := fun earlier member =>
  (List.pairwise_append.mp separate).2.2 earlier member t (List.mem_singleton_self t)

variable [DecidableEq K] {m : Finmap fun _ : K => V}

theorem mem_post : k ∈ post spends creates m t ↔ (k ∈ m ∧ k ∉ spends t) ∨ k ∈ made creates t := by
  rw [post,mem_insertAll,mem_eraseAll]
  rfl

theorem stored_made (history : History spends creates done m) : ∀ k ∈ m, ∃ t ∈ done, k ∈ made creates t := by
  induction history with
  | nil => intro k stored; cases Finmap.notMem_empty stored
  | @post done m t _ _ _ ih =>
    intro k stored
    rcases mem_post.mp stored with ⟨old,_⟩ | new
    · obtain ⟨source,member,makes⟩ := ih k old
      exact ⟨source,List.mem_append_left _ member,makes⟩
    · exact ⟨t,by simp,new⟩

-- An entry of the map is what the last item to make its key made there, unless
-- a later item consumed the key.
theorem lookup_fold {items : List T} : (items.foldl (post spends creates) ∅).lookup k = some v ↔
    ∃ before t later, items = before ++ t :: later ∧ (insertAll ∅ (creates t)).lookup k = some v ∧
      ∀ item ∈ later, k ∉ spends item ∧ k ∉ made creates item := by
  induction items using List.reverseRecOn with
  | nil => simp
  | append_singleton items last ih =>
    rw [List.foldl_append,List.foldl_cons,List.foldl_nil,post,lookup_insertAll,Option.or_eq_some_iff]
    constructor
    · rintro (new | ⟨unmade,old⟩)
      · exact ⟨items,last,[],rfl,new,fun _ member => absurd member List.not_mem_nil⟩
      · have kept : k ∉ spends last := by
          intro spent
          rw [lookup_eraseAll_of_mem spent] at old
          cases old
        rw [lookup_eraseAll_of_notMem kept] at old
        obtain ⟨before,t,later,rfl,source,apart⟩ := ih.mp old
        refine ⟨before,t,later ++ [last],by simp,source,fun item member => ?_⟩
        rcases List.mem_append.mp member with earlier | here
        · exact apart item earlier
        · obtain rfl := List.mem_singleton.mp here
          exact ⟨kept,fun makes => Finmap.lookup_eq_none.mp unmade (mem_insertAll.mpr (.inr makes))⟩
    · rintro ⟨before,t,later,split,source,apart⟩
      rcases List.eq_nil_or_concat' later with rfl | ⟨later,item,rfl⟩
      · obtain ⟨rfl,equal⟩ := List.append_inj' split rfl
        cases equal
        exact .inl source
      · have parts : items ++ [last] = (before ++ t :: later) ++ [item] := by simp [split]
        obtain ⟨rfl,equal⟩ := List.append_inj' parts rfl
        cases equal
        obtain ⟨unspent,unmade⟩ := apart last (by simp)
        refine .inr ⟨Finmap.lookup_eq_none.mpr fun makes => ?_,?_⟩
        · exact (mem_insertAll.mp makes).elim Finmap.notMem_empty unmade
        · rw [lookup_eraseAll_of_notMem unspent]
          exact ih.mpr ⟨before,t,later,rfl,source,fun item member => apart item (List.mem_append_left _ member)⟩

theorem history_fold (history : History spends creates done m) : m = done.foldl (post spends creates) ∅ := by
  induction history with
  | nil => rfl
  | post _ _ _ ih => rw [List.foldl_append,← ih]; rfl

-- The map of a history, key by key.
theorem history_lookup (history : History spends creates done m) : m.lookup k = some v ↔
    ∃ before t later, done = before ++ t :: later ∧ (insertAll ∅ (creates t)).lookup k = some v ∧
      ∀ item ∈ later, k ∉ spends item ∧ k ∉ made creates item := by
  rw [history_fold history]
  exact lookup_fold

-- What is not consumed stays.
theorem fold_keeps (items : List T) (stored : k ∈ m) (unspent : k ∉ items.flatMap spends) :
    k ∈ items.foldl (post spends creates) m := by
  induction items generalizing m with
  | nil => exact stored
  | cons item rest ih =>
    rw [List.flatMap_cons,List.mem_append,not_or] at unspent
    exact ih (mem_post.mpr (.inl ⟨stored,unspent.1⟩)) unspent.2

theorem spent_made (history : History spends creates done m) :
    ∀ k ∈ done.flatMap spends, ∃ t ∈ done, k ∈ made creates t := by
  induction history with
  | nil => intro k spent; cases spent
  | @post done m t history _ present ih =>
    intro k spent
    have source : ∃ t ∈ done, k ∈ made creates t := by
      rw [List.flatMap_append,List.mem_append] at spent
      rcases spent with old | new
      · exact ih k old
      · exact stored_made history k (present k (by simpa using new))
    obtain ⟨source,member,makes⟩ := source
    exact ⟨source,List.mem_append_left _ member,makes⟩

-- A key that is made only once never comes back, so it is never consumed again.
theorem spent_gone (history : History spends creates done m) (separate : Separate creates done) :
    ∀ k ∈ done.flatMap spends, k ∉ m := by
  induction history with
  | nil => intro k spent; cases spent
  | @post done m t history distinct present ih =>
    intro k spent stored
    obtain ⟨source,member,makes⟩ : ∃ source ∈ done, k ∈ made creates source := by
      rw [List.flatMap_append,List.mem_append] at spent
      rcases spent with old | new
      · exact spent_made history k old
      · exact stored_made history k (present k (by simpa using new))
    rcases mem_post.mp stored with ⟨kept,unspent⟩ | again
    · rw [List.flatMap_append,List.mem_append] at spent
      rcases spent with old | new
      · exact ih separate.init k old kept
      · exact unspent (by simpa using new)
    · exact separate.last source member k makes again

theorem spent_once (history : History spends creates done m) (separate : Separate creates done) :
    (done.flatMap spends).Nodup := by
  induction history with
  | nil => exact List.nodup_nil
  | @post done m t history distinct present ih =>
    rw [List.flatMap_append]
    refine List.nodup_append.mpr ⟨ih separate.init,by simpa using distinct,?_⟩
    intro k old other new equal
    subst equal
    exact spent_gone history separate.init k old (present k (by simpa using new))

theorem fresh_post (history : History spends creates done m) (separate : Separate creates (done ++ [t]))
    (own : (made creates t).Nodup) : FreshAll (eraseAll m (spends t)) (creates t) := by
  apply freshAll_exact.mpr
  refine ⟨own,fun k makes stored => ?_⟩
  obtain ⟨source,member,earlier⟩ := stored_made history k (mem_eraseAll.mp stored).1
  exact separate.last source member k earlier makes

-- What was made and not consumed is still there, as it was made.
theorem unspent_held (history : History spends creates done m) (separate : Separate creates done)
    (own : ∀ t ∈ done, (made creates t).Nodup) :
    ∀ t ∈ done, ∀ entry ∈ creates t, entry.1 ∉ done.flatMap spends → m.lookup entry.1 = some entry.2 := by
  induction history with
  | nil => intro t member; cases member
  | @post done m t history distinct present ih =>
    intro source member entry makes unspent
    rw [List.flatMap_append,List.mem_append,not_or] at unspent
    have kept : entry.1 ∉ spends t := by simpa using unspent.2
    rcases List.mem_append.mp member with old | new
    · have away := separate.last source old entry.1 (List.mem_map_of_mem makes)
      rw [post,lookup_insertAll_of_notMem away,lookup_eraseAll_of_notMem kept]
      exact ih separate.init (fun t member => own t (List.mem_append_left _ member)) source old entry makes unspent.1
    · obtain rfl := List.mem_singleton.mp new
      exact lookup_insertAll_of_mem (own source (by simp)) makes

theorem history_count (history : History spends creates done m) (separate : Separate creates done)
    (own : ∀ t ∈ done, (made creates t).Nodup) :
    m.keys.card + (done.flatMap spends).length = (done.flatMap creates).length := by
  induction history with
  | nil => rfl
  | @post done m t history distinct present ih =>
    have before := ih separate.init fun t member => own t (List.mem_append_left _ member)
    have erased := card_eraseAll distinct present
    have added := card_insertAll_fresh (fresh_post history separate (own t (by simp)))
    simp only [post,List.flatMap_append,List.length_append,List.flatMap_singleton]
    omega

theorem along_append (measure : (Finmap fun _ : K => V) → T → Nat) (done : List T) :
    along spends creates measure m (done ++ later) = along spends creates measure m done +
      along spends creates measure (done.foldl (post spends creates) m) later := by
  induction done generalizing m with
  | nil => exact (Nat.zero_add _).symm
  | cons first rest ih =>
    rw [List.cons_append,along,ih,along,Nat.add_assoc]
    rfl

theorem history_along (history : History spends creates done m) (measure : (Finmap fun _ : K => V) → T → Nat) :
    along spends creates measure ∅ (done ++ [t]) = along spends creates measure ∅ done + measure m t := by
  rw [along_append,← history_fold history]
  rfl

theorem history_init (history : History spends creates (done ++ later) m) :
    History spends creates done (done.foldl (post spends creates) ∅) := by
  induction later using List.reverseRecOn generalizing m with
  | nil =>
    rw [List.append_nil] at history
    rw [← history_fold history]
    exact history
  | append_singleton later last ih =>
    rw [← List.append_assoc] at history
    generalize items : done ++ later ++ [last] = all at history
    cases history with
    | nil => simp at items
    | post earlier =>
      obtain ⟨rfl,_⟩ := List.append_inj' items rfl
      exact ih earlier

end SpendHistory
