import Mathlib.Data.Finset.Card
import Mathlib.Data.List.Chain
import Mathlib.Data.List.Induction
import Mathlib.Logic.Relation

namespace ParentWalk

variable {α : Type}

-- `parent k` is the link stored for `k`, and `none` where nothing is stored.
-- A walk from `h` follows links until it reads the root (`rooted = true`) or a
-- key that is not stored. The list holds the stored keys it read, `h` last. A
-- walk that goes round in a circle does not end and is no `Walk`.
inductive Walk (parent : α → Option α) (root : α) : Bool → α → List α → Prop where
  | missing : parent h = none → Walk parent root false h []
  | root : parent root = some up → Walk parent root true root [root]
  | link : parent h = some up → h ≠ root → Walk parent root rooted up path →
      Walk parent root rooted h (path ++ [h])

variable {parent : α → Option α} {root h : α} {rooted rooted' : Bool} {path path' : List α}

theorem Walk.deterministic (one : Walk parent root rooted h path) (two : Walk parent root rooted' h path') :
    rooted = rooted' ∧ path = path' := by
  induction one generalizing path' with
  | missing none =>
    cases two with
    | missing => exact ⟨rfl,rfl⟩
    | root stored => simp [none] at stored
    | link stored => simp [none] at stored
  | root stored =>
    cases two with
    | missing none => simp [none] at stored
    | root => exact ⟨rfl,rfl⟩
    | link _ ne => exact absurd rfl ne
  | link stored ne _ ih =>
    cases two with
    | missing none => simp [none] at stored
    | root => exact absurd rfl ne
    | link stored' _ rest =>
      cases Option.some.inj (stored.symm.trans stored')
      obtain ⟨rfl,rfl⟩ := ih rest
      exact ⟨rfl,rfl⟩

theorem Walk.unique (one : Walk parent root rooted h path) (two : Walk parent root rooted' h path') :
    path = path' := (one.deterministic two).2

-- Induction over the walks that reach the root.
theorem Walk.rootedRec {motive : (h : α) → (path : List α) → Walk parent root true h path → Prop}
    (base : ∀ {up : α} (stored : parent root = some up), motive root [root] (.root stored))
    (link : ∀ {h up : α} {path : List α} (stored : parent h = some up) (ne : h ≠ root)
      (rest : Walk parent root true up path), motive up path rest → motive h (path ++ [h]) (.link stored ne rest))
    (walk : Walk parent root true h path) : motive h path walk := by
  have general : ∀ {rooted h path} (walk : Walk parent root rooted h path) (reached : rooted = true),
      motive h path (reached ▸ walk) := by
    intro rooted h path walk
    induction walk with
    | missing => intro reached; cases reached
    | root stored => intro _; exact base stored
    | link stored ne rest ih => intro reached; subst reached; exact link stored ne rest (ih rfl)
  exact general walk rfl

theorem Walk.unlink (walk : Walk parent root rooted h path) (stored : parent h = some up) (ne : h ≠ root) :
    ∃ front, Walk parent root rooted up front ∧ path = front ++ [h] := by
  cases walk with
  | missing none => simp [none] at stored
  | root => exact absurd rfl ne
  | link stored' _ rest =>
    cases Option.some.inj (stored.symm.trans stored')
    exact ⟨_,rest,rfl⟩

theorem Walk.last (walk : Walk parent root true h path) : path.getLast? = some h := by
  cases walk with
  | root => rfl
  | link => simp

theorem Walk.head (walk : Walk parent root true h path) : path.head? = some root := by
  induction walk using Walk.rootedRec with
  | base => rfl
  | @link _ _ path _ _ _ ih => cases path <;> simp_all

theorem Walk.ne_nil (walk : Walk parent root true h path) : path ≠ [] := by
  intro empty
  simpa [empty] using walk.last

theorem Walk.stored (walk : Walk parent root rooted h path) : ∀ k ∈ path, (parent k).isSome := by
  induction walk with
  | missing => simp
  | root stored => simp [stored]
  | link stored _ _ ih =>
    intro k member
    rcases List.mem_append.mp member with old | new
    · exact ih k old
    · cases List.mem_singleton.mp new; simp [stored]

-- Consecutive elements of the path are joined by stored links, and the root
-- is no later element.
theorem Walk.links (walk : Walk parent root true h path) :
    path.IsChain (fun up k => parent k = some up ∧ k ≠ root) := by
  induction walk using Walk.rootedRec with
  | base => exact .singleton _
  | @link h up path stored ne rest ih =>
    refine List.isChain_append.mpr ⟨ih,.singleton _,?_⟩
    intro last isLast first isFirst
    rw [rest.last] at isLast
    cases Option.mem_some.mp isLast
    cases Option.mem_some.mp isFirst
    exact ⟨stored,ne⟩

-- Every element of the path ends a walk of its own, along the prefix up to it.
theorem Walk.upTo (walk : Walk parent root rooted h path) :
    ∀ before k after, path = before ++ k :: after → Walk parent root rooted k (before ++ [k]) := by
  induction walk with
  | missing => intro before k after split; simp at split
  | root stored =>
    intro before k after split
    cases before with
    | nil => cases split; exact .root stored
    | cons => simp at split
  | @link h up _ path stored ne rest ih =>
    intro before k after split
    rcases List.eq_nil_or_concat after with rfl | ⟨after,last,rfl⟩
    · obtain ⟨rfl,equal⟩ := List.append_inj' split rfl
      cases equal
      exact .link stored ne rest
    · have split' : path ++ [h] = (before ++ k :: after) ++ [last] := by simpa using split
      exact ih before k after (List.append_inj' split' rfl).1

theorem Walk.atIndex (walk : Walk parent root rooted h path) (found : path[i]? = some k) :
    Walk parent root rooted k (path.take (i + 1)) := by
  obtain ⟨inside,rfl⟩ := List.getElem?_eq_some_iff.mp found
  have split : path = path.take i ++ path[i] :: path.drop (i + 1) := by
    rw [← List.drop_eq_getElem_cons inside,List.take_append_drop]
  rw [List.take_succ_eq_append_getElem inside]
  exact walk.upTo _ _ _ split

theorem Walk.nodup (walk : Walk parent root rooted h path) : path.Nodup := by
  induction walk with
  | missing => simp
  | root => simp
  | @link h up _ path stored ne rest ih =>
    refine List.nodup_append.mpr ⟨ih,by simp,?_⟩
    intro k inside last isLast equal
    cases List.mem_singleton.mp isLast
    subst equal
    -- a second visit to `k` would give `k` two walks of different lengths
    obtain ⟨before,after,split⟩ := List.append_of_mem inside
    have early := rest.upTo before k after split
    have lengths := congrArg List.length (early.unique (.link stored ne rest))
    simp [split] at lengths

theorem stored_length_le {keys : Finset α} (bound : ∀ k, (parent k).isSome → k ∈ keys)
    (stored : ∀ k ∈ path, (parent k).isSome) (distinct : path.Nodup) : path.length ≤ keys.card := by
  have subset : ∀ k ∈ path, k ∈ keys := fun k member => bound k (stored k member)
  simpa using Multiset.card_le_card ((Multiset.le_iff_subset (s := (path : Multiset α)) distinct).mpr subset)

-- Links that are kept keep every walk that reached the root, whatever is
-- stored at keys that had no link.
theorem Walk.grow {wider : α → Option α} (grows : ∀ k up, parent k = some up → wider k = some up)
    (walk : Walk parent root true h path) : Walk wider root true h path := by
  induction walk using Walk.rootedRec with
  | base stored => exact .root (grows _ _ stored)
  | link stored ne _ ih => exact .link (grows _ _ stored) ne ih

-- A walk is the same in another table of links that agrees with this one at its
-- start and wherever a link that is followed leads.
theorem Walk.transfer {other : α → Option α} (here : other h = parent h)
    (agree : ∀ k up, parent k = some up → k ≠ root → other up = parent up)
    (walk : Walk parent root rooted h path) : Walk other root rooted h path := by
  induction walk with
  | missing none => exact .missing (here.trans none)
  | root stored => exact .root (here.trans stored)
  | link stored ne _ ih => exact .link (here.trans stored) ne (ih (agree _ _ stored ne))

theorem Walk.restrict {other : α → Option α} (walk : Walk parent root true h path)
    (same : ∀ k ∈ path, other k = parent k) : Walk other root true h path := by
  induction walk using Walk.rootedRec with
  | base stored => exact .root ((same root (List.mem_singleton_self _)).trans stored)
  | @link h _ _ stored ne _ ih =>
    have kept := ih fun k member => same k (List.mem_append_left _ member)
    exact .link ((same h (by simp)).trans stored) ne kept

-- An order of keyed items in which no item names itself or a later item as its parent.
structure ParentFirst (key parent : β → α) (items : List β) : Prop where
  loopless : ∀ b ∈ items, key b ≠ parent b
  ordered : items.Pairwise fun earlier later => key later ≠ parent earlier

variable {key up : β → α} {items : List β}

theorem ParentFirst.init (order : ParentFirst key up (items ++ [b])) : ParentFirst key up items :=
  ⟨fun a member => order.loopless a (List.mem_append_left _ member),(List.pairwise_append.mp order.ordered).1⟩

theorem ParentFirst.last (order : ParentFirst key up (items ++ [b])) : ∀ a ∈ items ++ [b], key b ≠ up a := by
  intro a member
  rcases List.mem_append.mp member with old | new
  · exact (List.pairwise_append.mp order.ordered).2.2 a old b (List.mem_singleton_self b)
  · cases List.mem_singleton.mp new
    exact order.loopless b (List.mem_append_right _ new)

-- Two tables that agree off the items, and at an item whenever they agree at
-- its parent, agree everywhere.
theorem ParentFirst.agree {f g : α → γ} (order : ParentFirst key up items)
    (off : ∀ k, (∀ b ∈ items, key b ≠ k) → f k = g k)
    (on : ∀ b ∈ items, f (up b) = g (up b) → f (key b) = g (key b)) : f = g := by
  have general : ∀ done later, items = done ++ later → ∀ b ∈ done, f (key b) = g (key b) := by
    intro done
    induction done using List.reverseRecOn with
    | nil => intro _ _ b member; cases member
    | append_singleton done last ih =>
      intro later split b member
      rw [List.append_assoc] at split
      rcases List.mem_append.mp member with old | new
      · exact ih _ split b old
      cases List.mem_singleton.mp new
      refine on last (by rw [split]; simp) ?_
      by_cases known : ∃ a ∈ done, key a = up last
      · obtain ⟨a,inside,equal⟩ := known
        rw [← equal]
        exact ih _ split a inside
      · refine off _ fun a member equal => ?_
        rw [split] at member
        rcases List.mem_append.mp member with before | after
        · exact known ⟨a,before,equal⟩
        have ordered := (List.pairwise_append.mp (split ▸ order.ordered)).2.1
        rcases List.mem_cons.mp after with rfl | after
        · exact order.loopless a (by rw [split]; simp) equal
        · exact (List.pairwise_cons.mp ordered).1 a after equal
  funext k
  by_cases item : ∃ b ∈ items, key b = k
  · obtain ⟨b,member,rfl⟩ := item
    exact general items [] (List.append_nil _).symm b member
  · exact off k fun b member equal => item ⟨b,member,equal⟩

-- The walk as a loop with fuel. `none` is a loop that has not ended yet; the
-- inner option is what an ended loop returns.
def chase [DecidableEq α] (parent : α → Option α) (root : α) : Nat → α → Option (Option (List α))
  | 0,_ => none
  | fuel+1,h =>
    match parent h with
    | none => some none
    | some up =>
      if h = root then some (some [h])
      else (chase parent root fuel up).map (Option.map (· ++ [h]))

def outcome (rooted : Bool) (path : List α) : Option (List α) := if rooted then some path else none

variable [DecidableEq α] {fuel : Nat} {r : Option (List α)}

theorem chase_sound (ended : chase parent root fuel h = some r) :
    ∃ rooted path, Walk parent root rooted h path ∧ r = outcome rooted path := by
  induction fuel generalizing h r with
  | zero => cases ended
  | succ fuel ih =>
    simp only [chase] at ended
    split at ended
    · rename_i stored; cases Option.some.inj ended; exact ⟨false,[],.missing stored,rfl⟩
    · rename_i up stored
      split at ended
      · rename_i equal; subst equal; cases Option.some.inj ended; exact ⟨true,[h],.root stored,rfl⟩
      · rename_i ne
        cases rest : chase parent root fuel up with
        | none => simp [rest] at ended
        | some r' =>
          obtain ⟨rooted,path,walk,rfl⟩ := ih rest
          rw [rest] at ended
          cases Option.some.inj ended
          exact ⟨rooted,path ++ [h],.link stored ne walk,by cases rooted <;> rfl⟩

-- The reads of a walk: one for every key that it comes to, a missing one included.
def reads (rooted : Bool) (path : List α) : Nat := if rooted then path.length else path.length + 1

omit [DecidableEq α] in
theorem reads_snoc (rooted : Bool) (path : List α) (k : α) : reads rooted (path ++ [k]) = reads rooted path + 1 := by
  cases rooted with
  | false => simp [reads]
  | true => simp [reads]

omit [DecidableEq α] in
theorem Walk.reads_pos (walk : Walk parent root rooted h path) : 0 < reads rooted path := by
  induction walk with
  | missing => simp [reads]
  | root => simp [reads]
  | link => simp [reads_snoc]

-- The loop ends with the last read of the walk.
theorem chase_reads (walk : Walk parent root rooted h path) (fuel : Nat) :
    chase parent root fuel h = if reads rooted path ≤ fuel then some (outcome rooted path) else none := by
  induction walk generalizing fuel with
  | missing stored =>
    cases fuel with
    | zero => simp [chase,reads]
    | succ fuel => simp [chase,stored,reads,outcome]
  | root stored =>
    cases fuel with
    | zero => simp [chase,reads]
    | succ fuel => simp [chase,stored,reads,outcome]
  | @link _ _ rooted path stored ne rest ih =>
    rw [reads_snoc]
    cases fuel with
    | zero => simp [chase]
    | succ fuel =>
      simp only [chase,stored,ne,if_false,ih fuel,Nat.add_le_add_iff_right]
      split
      · cases rooted <;> rfl
      · rfl

theorem chase_complete (walk : Walk parent root rooted h path) (enough : path.length < fuel) :
    chase parent root fuel h = some (outcome rooted path) := by
  rw [chase_reads walk,if_pos]
  cases rooted with
  | false => exact enough
  | true => exact Nat.le_of_lt enough

omit [DecidableEq α] in
-- A walk visits what following the links from its start visits.
theorem Walk.visits {next : α → α} (follows : ∀ k up, parent k = some up → next k = up)
    (walk : Walk parent root rooted h path) : path = ((List.range path.length).map fun i => next^[i] h).reverse := by
  induction walk with
  | missing => rfl
  | root => rfl
  | @link h up _ path stored ne rest ih =>
    have later : (List.range path.length).map (fun i => next^[i + 1] h) =
        (List.range path.length).map fun i => next^[i] up := by
      simp only [Function.iterate_succ_apply,follows h up stored]
    rw [List.length_append,List.length_singleton,List.range_succ_eq_map,List.map_cons,List.map_map,List.reverse_cons]
    exact congrArg (· ++ [h]) (ih.trans (congrArg List.reverse later.symm))

-- Following the links leads through stored keys other than the root, and then to
-- the root or to a missing key.
structure Course (parent : α → Option α) (root : α) (next : α → α) (rooted : Bool) (h : α) (stop : Nat) : Prop where
  before : ∀ i < stop, (parent (next^[i] h)).isSome ∧ next^[i] h ≠ root
  arrives : rooted = true → next^[stop] h = root ∧ (parent root).isSome
  strays : rooted = false → parent (next^[stop] h) = none

omit [DecidableEq α] in
theorem Walk.course {next : α → α} (follows : ∀ k up, parent k = some up → next k = up)
    (walk : Walk parent root rooted h path) : Course parent root next rooted h (reads rooted path - 1) := by
  induction walk with
  | missing none => exact ⟨by simp [reads],by simp,fun _ => none⟩
  | root stored => exact ⟨by simp [reads],fun _ => ⟨rfl,by simp [stored]⟩,by simp⟩
  | @link h up rooted path stored ne rest ih =>
    obtain ⟨before,arrives,strays⟩ := ih
    have first : next h = up := follows h up stored
    have stop : reads rooted (path ++ [h]) - 1 = reads rooted path - 1 + 1 := by
      have positive := rest.reads_pos
      rw [reads_snoc]
      omega
    rw [stop]
    refine ⟨?_,?_,?_⟩
    · intro i below
      cases i with
      | zero => exact ⟨by simp [stored],ne⟩
      | succ i =>
        rw [Function.iterate_succ_apply,first]
        exact before i (Nat.lt_of_succ_lt_succ below)
    · rw [Function.iterate_succ_apply,first]
      exact arrives
    · rw [Function.iterate_succ_apply,first]
      exact strays

-- One unit of fuel more than there are stored keys decides every walk: what
-- the loop has not found by then it never finds.
theorem chase_exact {keys : Finset α} (bound : ∀ k, (parent k).isSome → k ∈ keys) :
    chase parent root (keys.card+1) h = some r ↔
      ∃ rooted path, Walk parent root rooted h path ∧ r = outcome rooted path := by
  refine ⟨chase_sound,?_⟩
  rintro ⟨rooted,path,walk,rfl⟩
  exact chase_complete walk (Nat.lt_succ_of_le (stored_length_le bound walk.stored walk.nodup))

-- A loop that has used up its fuel has read that many stored links in a row.
theorem chase_trail (unfinished : chase parent root fuel h = none) :
    ∃ trail : List α, trail.length = fuel ∧ (∀ k ∈ trail, (parent k).isSome) ∧ (fuel ≠ 0 → trail.getLast? = some h) ∧
      trail.IsChain (fun up k => parent k = some up) := by
  induction fuel generalizing h with
  | zero => exact ⟨[],rfl,by simp,by simp,.nil⟩
  | succ fuel ih =>
    simp only [chase] at unfinished
    split at unfinished
    · cases unfinished
    · rename_i up stored
      split at unfinished
      · cases unfinished
      · obtain ⟨trail,length,all,last,links⟩ := ih (by simpa using unfinished)
        refine ⟨trail ++ [h],by simp [length],?_,by simp,?_⟩
        · intro k member
          rcases List.mem_append.mp member with old | new
          · exact all k old
          · cases List.mem_singleton.mp new; simp [stored]
        · refine List.isChain_append.mpr ⟨links,.singleton _,?_⟩
          intro k isLast first isFirst
          cases Option.mem_some.mp isFirst
          by_cases empty : fuel = 0
          · subst empty; simp [List.length_eq_zero_iff.mp length] at isLast
          · rw [last empty] at isLast; cases Option.mem_some.mp isLast; exact stored

theorem chase_returns {keys : Finset α} (bound : ∀ k, (parent k).isSome → k ∈ keys)
    (acyclic : ∀ k, ¬ Relation.TransGen (fun up k => parent k = some up) k k) :
    ∃ r, chase parent root (keys.card+1) h = some r := by
  cases ended : chase parent root (keys.card+1) h with
  | some r => exact ⟨r,rfl⟩
  | none =>
    obtain ⟨trail,length,stored,_,links⟩ := chase_trail ended
    have reach : trail.Pairwise (Relation.TransGen fun up k => parent k = some up) :=
      (links.imp fun _ _ link => .single link).pairwise
    have distinct : trail.Nodup := reach.imp (fun {a b} step => by
      rintro rfl
      exact acyclic _ step)
    have short := stored_length_le bound stored distinct
    omega

end ParentWalk
