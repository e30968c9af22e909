import Mathlib.Algebra.Order.Ring.Nat
import Mathlib.Tactic.Ring

-- Rounding down to a mantissa below `base * least` and a power of `base`.
namespace Rounding

variable {base least t u : Nat}

-- `k` is the least number of digits to drop before what is left fits.
structure Drops (base least t k : Nat) : Prop where
  fits : t < base * least * base^k
  needed : k = 0 ∨ least * base^k ≤ t

def keep (base t k : Nat) : Nat := t / base^k * base^k

theorem keep_le (base t k : Nat) : keep base t k ≤ t := Nat.div_mul_le_self t _

@[simp] theorem keep_all (base t : Nat) : keep base t 0 = t := by simp [keep]

theorem keep_close (positive : 0 < base) (t k : Nat) : t < keep base t k + base^k := by
  have split := Nat.div_add_mod' t (base^k)
  have rest := Nat.mod_lt t (Nat.pow_pos (n := k) positive)
  unfold keep
  omega

theorem keep_quotient (positive : 0 < base) (t k : Nat) : keep base t k / base^k = t / base^k :=
  Nat.mul_div_cancel _ (Nat.pow_pos positive)

theorem keep_reaches (positive : 0 < base) (reached : n * base^k ≤ t) : n * base^k ≤ keep base t k :=
  Nat.mul_le_mul_right _ ((Nat.le_div_iff_mul_le (Nat.pow_pos positive)).mpr reached)

theorem power_step (positive : 0 < base) (later : j < k) : base * least * base^j ≤ least * base^k := by
  have order : base^(j + 1) ≤ base^k := Nat.pow_le_pow_right positive later
  calc base * least * base^j = least * base^(j + 1) := by ring
    _ ≤ least * base^k := Nat.mul_le_mul_left _ order

theorem drops_order (positive : 0 < base) (first : Drops base least t j) (second : Drops base least u k)
    (order : t ≤ u) : j ≤ k := by
  rcases Nat.lt_or_ge k j with later | done
  · have reached := first.needed.resolve_left (by omega)
    have fits := second.fits
    have grows : base * least * base^k ≤ least * base^j := power_step positive later
    omega
  · exact done

theorem drops_unique (positive : 0 < base) (first : Drops base least t j) (second : Drops base least t k) : j = k :=
  Nat.le_antisymm (drops_order positive first second (Nat.le_refl t))
    (drops_order positive second first (Nat.le_refl t))

theorem keep_drops (positive : 0 < base) (drops : Drops base least t k) : Drops base least (keep base t k) k := by
  refine ⟨Nat.lt_of_le_of_lt (keep_le base t k) drops.fits,?_⟩
  exact drops.needed.imp_right (keep_reaches positive)

theorem keep_positive (positive : 0 < base) (some : 0 < least) (drops : Drops base least t k) (nonzero : 0 < t) :
    0 < keep base t k := by
  rcases drops.needed with rfl | reached
  · simpa using nonzero
  · have above := keep_reaches positive reached
    have large : 0 < least * base^k := Nat.mul_pos some (Nat.pow_pos positive)
    omega

-- The part that is dropped is below `1 / least` of the whole.
theorem keep_error (positive : 0 < base) (some : 0 < least) (drops : Drops base least t k) (nonzero : 0 < t) :
    (t - keep base t k) * least < t := by
  rcases drops.needed with rfl | reached
  · simpa using nonzero
  · have close := keep_close positive t k
    have below := keep_le base t k
    calc (t - keep base t k) * least < base^k * least := by
          apply Nat.mul_lt_mul_of_pos_right _ some
          omega
      _ = least * base^k := Nat.mul_comm _ _
      _ ≤ t := reached

theorem keep_monotone (positive : 0 < base) (first : Drops base least t j) (second : Drops base least u k)
    (order : t ≤ u) : keep base t j ≤ keep base u k := by
  rcases Nat.lt_or_eq_of_le (drops_order positive first second order) with later | rfl
  · have reached := keep_reaches positive (second.needed.resolve_left (by omega))
    have grows : base * least * base^j ≤ least * base^k := power_step positive later
    have below := keep_le base t j
    have fits := first.fits
    omega
  · exact Nat.mul_le_mul_right _ (Nat.div_le_div_right order)

end Rounding
