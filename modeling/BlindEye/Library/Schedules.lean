import Mathlib.Order.Basic
import Mathlib.Tactic.Common

-- Threads that take turns for ever. A call that cannot be made when its turn comes
-- changes nothing.
namespace Schedules

variable {σ α κ : Type} {step : σ → α → Option σ} {thread : α → κ} {allowed : α → Prop} {order : Nat → α}
variable {motive : σ → Prop} {wanted : κ → Prop} {start : σ}

def advance (step : σ → α → Option σ) (s : σ) (a : α) : σ := (step s a).getD s

def states (step : σ → α → Option σ) (start : σ) (order : Nat → α) : Nat → σ
  | 0 => start
  | n + 1 => advance step (states step start order n) (order n)

-- Every wanted thread has a turn after any moment.
def Fair (thread : α → κ) (wanted : κ → Prop) (order : Nat → α) : Prop :=
  ∀ k, wanted k → ∀ n, ∃ m, n ≤ m ∧ thread (order m) = k

theorem states_invariant (first : motive start) (all : ∀ n, allowed (order n))
    (keeps : ∀ s a, motive s → allowed a → motive (advance step s a)) (n : Nat) : motive (states step start order n) := by
  induction n with
  | zero => exact first
  | succ n ih => exact keeps _ _ ih (all n)

-- What only one thread can end lasts until that thread has its turn.
theorem fair_turn (fair : Fair thread wanted order) (all : ∀ n, allowed (order n)) (one : wanted k)
    (keeps : ∀ s a, motive s → allowed a → thread a ≠ k → motive (advance step s a))
    (now : motive (states step start order n)) :
    ∃ m, n ≤ m ∧ thread (order m) = k ∧ motive (states step start order m) := by
  obtain ⟨m,later,turn⟩ := fair k one n
  obtain ⟨gap,rfl⟩ := Nat.exists_eq_add_of_le later
  clear later
  induction gap generalizing n with
  | zero => exact ⟨n,Nat.le_refl n,turn,now⟩
  | succ gap ih =>
    by_cases here : thread (order n) = k
    · exact ⟨n,Nat.le_refl n,here,now⟩
    · have next : motive (states step start order (n + 1)) := keeps _ _ now (all n) here
      obtain ⟨m,later,found⟩ := ih next (by rwa [Nat.add_right_comm])
      exact ⟨m,by omega,found⟩

-- Short of the goal one thread brings it nearer, and the turns of the others bring it
-- nearer too or leave the distance and that thread as they are.
theorem fair_reaches (goal : σ → Prop) (distance : σ → Nat) (helper : σ → κ) (fair : Fair thread wanted order)
    (all : ∀ n, allowed (order n)) (helped : ∀ s, motive s → ¬goal s → wanted (helper s))
    (keeps : ∀ s a, motive s → allowed a → ¬goal s → goal (advance step s a) ∨ motive (advance step s a))
    (nearer : ∀ s a, motive s → allowed a → ¬goal s → goal (advance step s a) ∨
      distance (advance step s a) < distance s ∨ (thread a ≠ helper s ∧
        distance (advance step s a) = distance s ∧ helper (advance step s a) = helper s))
    (now : motive (states step start order n)) : ∃ m, n ≤ m ∧ goal (states step start order m) := by
  generalize size : distance (states step start order n) = d
  induction d using Nat.strongRecOn generalizing n with
  | ind d closer =>
    by_cases done : goal (states step start order n)
    · exact ⟨n,Nat.le_refl n,done⟩
    obtain ⟨m,later,turn⟩ := fair _ (helped _ now done) n
    obtain ⟨gap,rfl⟩ := Nat.exists_eq_add_of_le later
    clear later
    -- The wait for the turn of the helper.
    induction gap generalizing n with
    | zero =>
      rcases keeps _ _ now (all n) done with reached | next
      · exact ⟨n + 1,by omega,reached⟩
      change motive (states step start order (n + 1)) at next
      rcases nearer _ _ now (all n) done with reached | less | ⟨other,_⟩
      · exact ⟨n + 1,by omega,reached⟩
      · change distance (states step start order (n + 1)) < _ at less
        obtain ⟨m,later,reached⟩ := closer _ (size ▸ less) next rfl
        exact ⟨m,by omega,reached⟩
      · exact absurd turn other
    | succ gap ih =>
      rcases keeps _ _ now (all n) done with reached | next
      · exact ⟨n + 1,by omega,reached⟩
      change motive (states step start order (n + 1)) at next
      rcases nearer _ _ now (all n) done with reached | less | ⟨_,same,helps⟩
      · exact ⟨n + 1,by omega,reached⟩
      · change distance (states step start order (n + 1)) < _ at less
        obtain ⟨m,later,reached⟩ := closer _ (size ▸ less) next rfl
        exact ⟨m,by omega,reached⟩
      · by_cases already : goal (states step start order (n + 1))
        · exact ⟨n + 1,by omega,already⟩
        have turn' : thread (order (n + 1 + gap)) = helper (states step start order (n + 1)) := by
          rw [Nat.add_right_comm]
          exact turn.trans helps.symm
        obtain ⟨m,later,reached⟩ := ih next (same.trans size) already turn'
        exact ⟨m,by omega,reached⟩

end Schedules
