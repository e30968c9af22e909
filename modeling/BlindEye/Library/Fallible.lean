import Mathlib.Data.List.Basic

namespace Fallible

variable {ε σ α β : Type}

@[simp] theorem ok_bind (a : α) (f : α → Except ε β) : (Except.ok a >>= f) = f a := rfl
@[simp] theorem error_bind (e : ε) (f : α → Except ε β) : (Except.error e >>= f) = .error e := rfl

theorem bind_ok {x : Except ε α} {f : α → Except ε β} :
    (x >>= f) = .ok r ↔ ∃ a, x = .ok a ∧ f a = .ok r := by
  cases x with
  | error e => simp
  | ok a => simp

-- `Option::ok_or`.
def okOr (e : ε) : Option α → Except ε α
  | none => .error e
  | some a => .ok a

@[simp] theorem okOr_ok {x : Option α} : okOr e x = .ok a ↔ x = some a := by
  cases x with
  | none => simp [okOr]
  | some b => simp [okOr]

theorem map_ok {x : Except ε α} {f : α → β} : x.map f = .ok b ↔ ∃ a, x = .ok a ∧ f a = b := by
  cases x with
  | error e => simp [Except.map]
  | ok a => simp [Except.map]

theorem toBool_ok {x : Except ε α} : x.toBool = true ↔ ∃ a, x = .ok a := by
  cases x with
  | error e => simp [Except.toBool]
  | ok a => simp [Except.toBool]

theorem fold_append {f : σ → α → Except ε σ} {before after : List α} : (before ++ after).foldlM f s = .ok last ↔
    ∃ mid, before.foldlM f s = .ok mid ∧ after.foldlM f mid = .ok last := by
  rw [List.foldlM_append,bind_ok]

-- The rule of a loop that stops at its first error: `motive` speaks of the state
-- and of the elements that are done.
theorem fold_invariant {f : σ → α → Except ε σ} {motive : σ → List α → Prop} {items : List α} (start : motive s [])
    (preserved : ∀ before a after s next, items = before ++ a :: after → motive s before →
      f s a = .ok next → motive next (before ++ [a]))
    (folded : items.foldlM f s = .ok last) : motive last items := by
  have general : ∀ rest done s, items = done ++ rest → motive s done → rest.foldlM f s = .ok last →
      motive last items := by
    intro rest
    induction rest with
    | nil =>
      intro done s split now folded
      cases folded
      rw [split,List.append_nil]
      exact now
    | cons a rest ih =>
      intro done s split now folded
      rw [List.foldlM_cons] at folded
      obtain ⟨next,step,later⟩ := bind_ok.mp folded
      apply ih (done ++ [a]) next
      · rw [split,List.append_assoc]; rfl
      · exact preserved done a rest s next split now step
      · exact later
  exact general items [] s rfl start folded

end Fallible
