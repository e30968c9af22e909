import Mathlib
import BlindEye.Library.Runs

namespace Families
open Runs

variable {ι σ α ρ : Type} [DecidableEq ι]

-- Members of one kind side by side. A call is addressed to one of them and
-- leaves the others as they are.
def turn (step : σ → α → Option (σ × ρ)) (states : ι → σ) (call : ι × α) : Option ((ι → σ) × ρ) :=
  (step (states call.1) call.2).map fun (next,answer) => (Function.update states call.1 next,answer)

-- The calls to one member.
def own (i : ι) (calls : List ((ι × α) × ρ)) : List (α × ρ) :=
  (calls.filter fun call => call.1.1 = i).map fun call => (call.1.2,call.2)

variable {step : σ → α → Option (σ × ρ)} {meets : σ → α → Prop} {origin states next : ι → σ}
  {calls : List ((ι × α) × ρ)}

@[simp] theorem own_nil (i : ι) : own i ([] : List ((ι × α) × ρ)) = [] := rfl

theorem own_self : own i (calls ++ [((i,a),answer)]) = own i calls ++ [(a,answer)] := by
  simp [own]

theorem own_other (other : j ≠ i) : own i (calls ++ [((j,a),answer)]) = own i calls := by
  simp [own,other]

theorem turn_exact : turn step states (i,a) = some (next,answer) ↔
    ∃ after, step (states i) a = some (after,answer) ∧ next = Function.update states i after := by
  unfold turn
  cases step (states i) a with
  | none => simp
  | some pair =>
    obtain ⟨after,reply⟩ := pair
    simp only [Option.map_some,Option.some.injEq,Prod.mk.injEq]
    constructor
    · intro equal
      exact ⟨after,⟨rfl,equal.2⟩,equal.1.symm⟩
    · intro ran
      obtain ⟨_,⟨rfl,rfl⟩,rfl⟩ := ran
      exact ⟨rfl,rfl⟩

-- In a run of the family every member makes a run of its own.
theorem own_run (path : Run (turn step) (fun states call => meets (states call.1) call.2) origin calls states) (i : ι) :
    Run step meets (origin i) (own i calls) (states i) := by
  induction path with
  | nil => exact .nil
  | @step earlier states call next answer _ allowed ran ih =>
    obtain ⟨j,a⟩ := call
    obtain ⟨after,moved,rfl⟩ := turn_exact.mp ran
    by_cases same : j = i
    · subst same
      rw [own_self,Function.update_self]
      exact .step ih allowed moved
    · rw [own_other same,Function.update_of_ne (Ne.symm same)]
      exact ih

-- What the calls add up to is the sum over the members.
theorem total_own [Fintype ι] (f : α × ρ → Nat) (calls : List ((ι × α) × ρ)) :
    total (fun call => f (call.1.2,call.2)) calls = ∑ i, total f (own i calls) := by
  induction calls using List.reverseRecOn with
  | nil => simp
  | append_singleton calls call ih =>
    obtain ⟨⟨j,a⟩,answer⟩ := call
    have here : ∀ i, total f (own i (calls ++ [((j,a),answer)])) =
        total f (own i calls) + if j = i then f (a,answer) else 0 := by
      intro i
      by_cases same : j = i
      · subst same
        simp [own_self]
      · simp [own_other same,same]
    simp only [here,Finset.sum_add_distrib,Finset.sum_ite_eq,Finset.mem_univ,if_true]
    simp [ih]

end Families
