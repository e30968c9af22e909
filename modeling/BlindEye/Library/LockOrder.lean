import Mathlib.Data.List.Basic
import Mathlib.Logic.Function.Basic
import Mathlib.Logic.Relation

namespace LockOrder

variable {Lock Name : Type} [DecidableEq Lock]

inductive Move (Lock : Type) where
  | acquire (lock : Lock)
  | release (lock : Lock)
  deriving DecidableEq

structure Thread (Lock : Type) where
  held : List Lock
  rest : List (Move Lock)

def start (programs : Name → List (Move Lock)) (i : Name) : Thread Lock := ⟨[],programs i⟩

def Waits (s : Name → Thread Lock) (i j : Name) : Prop :=
  ∃ lock rest, (s i).rest = .acquire lock :: rest ∧ lock ∈ (s j).held

-- A cycle of waiting threads, of which a thread that waits for itself is one.
def Deadlocked (s : Name → Thread Lock) : Prop := ∃ i, Relation.TransGen (Waits s) i i

def heldAfter (held : List Lock) : List (Move Lock) → List Lock
  | [] => held
  | .acquire lock :: rest => heldAfter (lock :: held) rest
  | .release lock :: rest => heldAfter (held.erase lock) rest

-- Every lock is acquired above all locks that are held.
def Ordered (rank : Lock → Nat) (held : List Lock) : List (Move Lock) → Prop
  | [] => True
  | .acquire lock :: rest => (∀ other ∈ held, rank other < rank lock) ∧ Ordered rank (lock :: held) rest
  | .release lock :: rest => Ordered rank (held.erase lock) rest

instance ordered_decidable (rank : Lock → Nat) (held : List Lock) (moves : List (Move Lock)) :
    Decidable (Ordered rank held moves) :=
  match moves with
  | [] => isTrue trivial
  | .acquire lock :: rest =>
    have := ordered_decidable rank (lock :: held) rest
    inferInstanceAs (Decidable (_ ∧ _))
  | .release lock :: rest => ordered_decidable rank (held.erase lock) rest

theorem heldAfter_append (held : List Lock) (before after : List (Move Lock)) :
    heldAfter held (before ++ after) = heldAfter (heldAfter held before) after := by
  induction before generalizing held with
  | nil => rfl
  | cons move before ih => cases move <;> exact ih _

theorem ordered_append {rank : Lock → Nat} {held : List Lock} {before after : List (Move Lock)} :
    Ordered rank held (before ++ after) ↔
      Ordered rank held before ∧ Ordered rank (heldAfter held before) after := by
  induction before generalizing held with
  | nil => simp [Ordered,heldAfter]
  | cons move before ih =>
    cases move with
    | acquire lock => exact (and_congr_right fun _ => ih).trans and_assoc.symm
    | release lock => exact ih

-- A sequence of parts, each of which starts and ends without a lock.
theorem ordered_flatten {rank : Lock → Nat} {parts : List (List (Move Lock))}
    (each : ∀ part ∈ parts, Ordered rank [] part ∧ heldAfter [] part = []) :
    Ordered rank [] parts.flatten ∧ heldAfter [] parts.flatten = [] := by
  induction parts with
  | nil => exact ⟨trivial,rfl⟩
  | cons part parts ih =>
    obtain ⟨ordered,free⟩ := each part List.mem_cons_self
    have later := ih fun part member => each part (List.mem_cons_of_mem _ member)
    rw [List.flatten_cons,ordered_append,heldAfter_append,free]
    exact ⟨⟨ordered,later.1⟩,later.2⟩

def AllOrdered (rank : Lock → Nat) (s : Name → Thread Lock) : Prop := ∀ i, Ordered rank (s i).held (s i).rest

theorem waits_below {rank : Lock → Nat} {s : Name → Thread Lock} (ordered : AllOrdered rank s)
    (held : lock ∈ (s j).held) (next : (s j).rest = .acquire lock' :: rest) : rank lock < rank lock' := by
  have above := ordered j
  rw [next] at above
  exact above.1 _ held

-- Along a chain of waiting threads the locks that they wait for go up.
theorem chain_below {rank : Lock → Nat} {s : Name → Thread Lock} (ordered : AllOrdered rank s)
    (chain : Relation.TransGen (Waits s) i j) (first : (s i).rest = .acquire lock :: rest)
    (last : (s j).rest = .acquire lock' :: rest') : rank lock < rank lock' := by
  induction chain generalizing lock' rest' with
  | single waits =>
    obtain ⟨wanted,_,next,held⟩ := waits
    rw [first] at next
    cases next
    exact waits_below ordered held last
  | tail _ waits ih =>
    obtain ⟨wanted,_,next,held⟩ := waits
    exact Nat.lt_trans (ih next) (waits_below ordered held last)

theorem ordered_never_deadlocked {rank : Lock → Nat} {s : Name → Thread Lock} (ordered : AllOrdered rank s) :
    ¬ Deadlocked s := by
  intro deadlocked
  obtain ⟨i,cycle⟩ := deadlocked
  obtain ⟨_,⟨lock,rest,next,_⟩,_⟩ := Relation.TransGen.head'_iff.mp cycle
  exact Nat.lt_irrefl _ (chain_below ordered cycle next next)

variable [DecidableEq Name]

-- No lock is reentrant: an acquisition waits for every holder, the thread itself
-- included.
inductive Step (s : Name → Thread Lock) : (Name → Thread Lock) → Prop where
  | acquire (i : Name) (lock : Lock) (rest : List (Move Lock)) (next : (s i).rest = .acquire lock :: rest)
      (free : ∀ j, lock ∉ (s j).held) : Step s (Function.update s i ⟨lock :: (s i).held,rest⟩)
  | release (i : Name) (lock : Lock) (rest : List (Move Lock)) (next : (s i).rest = .release lock :: rest) :
      Step s (Function.update s i ⟨(s i).held.erase lock,rest⟩)

abbrev Reaches (s t : Name → Thread Lock) : Prop := Relation.ReflTransGen Step s t

theorem step_ordered {rank : Lock → Nat} {s t : Name → Thread Lock} (step : Step s t) (ordered : AllOrdered rank s) :
    AllOrdered rank t := by
  intro k
  cases step with
  | acquire i lock rest next free =>
    by_cases same : k = i
    · subst same
      have here := ordered k
      rw [next] at here
      rw [Function.update_self]
      exact here.2
    · rw [Function.update_of_ne same]
      exact ordered k
  | release i lock rest next =>
    by_cases same : k = i
    · subst same
      have here := ordered k
      rw [next] at here
      rw [Function.update_self]
      exact here
    · rw [Function.update_of_ne same]
      exact ordered k

theorem reaches_ordered {rank : Lock → Nat} {s t : Name → Thread Lock} (path : Reaches s t)
    (ordered : AllOrdered rank s) : AllOrdered rank t := by
  induction path with
  | refl => exact ordered
  | tail _ step ih => exact step_ordered step ih

-- Every thread ends without a lock.
def AllReleased (s : Name → Thread Lock) : Prop := ∀ i, heldAfter (s i).held (s i).rest = []

theorem step_released {s t : Name → Thread Lock} (step : Step s t) (released : AllReleased s) : AllReleased t := by
  intro k
  cases step with
  | acquire i lock rest next free =>
    by_cases same : k = i
    · subst same
      have here := released k
      rw [next] at here
      rw [Function.update_self]
      exact here
    · rw [Function.update_of_ne same]
      exact released k
  | release i lock rest next =>
    by_cases same : k = i
    · subst same
      have here := released k
      rw [next] at here
      rw [Function.update_self]
      exact here
    · rw [Function.update_of_ne same]
      exact released k

theorem reaches_released {s t : Name → Thread Lock} (path : Reaches s t) (released : AllReleased s) : AllReleased t := by
  induction path with
  | refl => exact released
  | tail _ step ih => exact step_released step ih

-- The search for a thread that can move goes from a waiting thread to a holder,
-- and the rank of the lock in question goes up.
theorem ordered_moves {rank : Lock → Nat} {s : Name → Thread Lock} (bounded : ∀ lock, rank lock < bound)
    (ordered : AllOrdered rank s) (released : AllReleased s) (unfinished : (s i).rest ≠ []) : ∃ t, Step s t := by
  have search : ∀ n i lock rest, bound - rank lock ≤ n → (s i).rest = .acquire lock :: rest → ∃ t, Step s t := by
    intro n
    induction n with
    | zero =>
      intro i lock rest low _
      have := bounded lock
      omega
    | succ n ih =>
      intro i lock rest low next
      by_cases free : ∀ j, lock ∉ (s j).held
      · exact ⟨_,.acquire i lock rest next free⟩
      · obtain ⟨j,held⟩ := not_forall_not.mp free
        cases later : (s j).rest with
        | nil =>
          have done := released j
          rw [later] at done
          rw [show (s j).held = [] from done] at held
          cases held
        | cons move rest' =>
          cases move with
          | release lock' => exact ⟨_,.release j lock' rest' later⟩
          | acquire lock' =>
            have up := waits_below ordered held later
            have := bounded lock
            exact ih j lock' rest' (by omega) later
  cases next : (s i).rest with
  | nil => exact absurd next unfinished
  | cons move rest =>
    cases move with
    | acquire lock => exact search _ i lock rest (Nat.le_refl _) next
    | release lock => exact ⟨_,.release i lock rest next⟩

-- A thread of ordered moves runs through them while no other thread holds a lock.
theorem runs_alone {rank : Lock → Nat} {s : Name → Thread Lock} {moves rest : List (Move Lock)}
    (next : (s i).rest = moves ++ rest) (ordered : Ordered rank (s i).held moves)
    (alone : ∀ j, j ≠ i → (s j).held = []) :
    Reaches s (Function.update s i ⟨heldAfter (s i).held moves,rest⟩) := by
  induction moves generalizing s with
  | nil =>
    have same : (⟨heldAfter (s i).held [],rest⟩ : Thread Lock) = s i := by
      rw [← List.nil_append rest,← next]
      rfl
    rw [same,Function.update_eq_self]
  | cons move moves ih =>
    have alone' : ∀ thread j, j ≠ i → (Function.update s i thread j).held = [] := by
      intro thread j other
      rw [Function.update_of_ne other]
      exact alone j other
    cases move with
    | acquire lock =>
      have free : ∀ j, lock ∉ (s j).held := by
        intro j held
        by_cases same : j = i
        · subst same
          exact Nat.lt_irrefl _ (ordered.1 lock held)
        · rw [alone j same] at held
          cases held
      have after := ih (by rw [Function.update_self]) (by rw [Function.update_self]; exact ordered.2)
        (alone' ⟨lock :: (s i).held,moves ++ rest⟩)
      rw [Function.update_idem,Function.update_self] at after
      exact .head (.acquire i lock _ next free) after
    | release lock =>
      have after := ih (by rw [Function.update_self]) (by rw [Function.update_self]; exact ordered)
        (alone' ⟨(s i).held.erase lock,moves ++ rest⟩)
      rw [Function.update_idem,Function.update_self] at after
      exact .head (.release i lock _ next) after

-- A thread that comes to acquire what it holds can be run into it.
theorem reentry_waits {rank : Lock → Nat} {s : Name → Thread Lock}
    (next : (s i).rest = before ++ .acquire lock :: after) (ordered : Ordered rank (s i).held before)
    (held : lock ∈ heldAfter (s i).held before) (alone : ∀ j, j ≠ i → (s j).held = []) :
    ∃ t, Reaches s t ∧ Waits t i i := by
  refine ⟨_,runs_alone next ordered alone,lock,after,?_,?_⟩
  · rw [Function.update_self]
  · rw [Function.update_self]
    exact held

end LockOrder
