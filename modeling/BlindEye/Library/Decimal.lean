import Mathlib.Data.List.DropRight
import Mathlib.Tactic.Ring

-- Numbers written with decimal digits, most significant first.
namespace Decimal

def value (digits : List Char) : Nat := Nat.ofDigitChars 10 digits 0

@[simp] theorem value_nil : value [] = 0 := rfl

@[simp] theorem value_toDigits (n : Nat) : value (Nat.toDigits 10 n) = n := Nat.ofDigitChars_ten_toDigits

theorem value_zeros (n : Nat) (digits : List Char) : value (List.replicate n '0' ++ digits) = value digits := by
  rw [value,Nat.ofDigitChars_append,Nat.ofDigitChars_replicate_zero,Nat.mul_zero]
  rfl

-- What is left of a number whose digits so far read `before`.
def continued (before : Nat) (digits : List Char) : Nat := Nat.ofDigitChars 10 digits before

@[simp] theorem continued_nil (before : Nat) : continued before [] = before := rfl

theorem continued_cons (before : Nat) (ch : Char) (rest : List Char) :
    continued before (ch :: rest) = continued (before * 10 + (ch.toNat - '0'.toNat)) rest := by
  rw [continued,Nat.ofDigitChars_cons,Nat.mul_comm]
  rfl

theorem continued_value (before : Nat) (digits : List Char) :
    continued before digits = before * 10^digits.length + value digits := by
  induction digits generalizing before with
  | nil => simp
  | cons ch rest ih =>
    have first : value (ch :: rest) = continued (0 * 10 + (ch.toNat - '0'.toNat)) rest := continued_cons 0 ch rest
    rw [continued_cons,ih,first,ih,List.length_cons]
    ring

theorem continued_ge (before : Nat) (digits : List Char) : before ≤ continued before digits := by
  rw [continued_value]
  exact Nat.le_add_right_of_le (Nat.le_mul_of_pos_right _ (Nat.pow_pos (by omega)))

theorem digit_le (digit : Char.isDigit ch = true) : ch.toNat - '0'.toNat ≤ 9 := by
  simp only [Char.isDigit,ge_iff_le,Bool.and_eq_true,decide_eq_true_eq] at digit
  have upper := UInt32.le_iff_toNat_le.mp digit.2
  change ch.toNat ≤ 57 at upper
  change ch.toNat - 48 ≤ 9
  omega

theorem toDigits_digits (n : Nat) : ∀ ch ∈ Nat.toDigits 10 n, Char.isDigit ch = true := by
  intro ch member
  exact Nat.isDigit_of_mem_toDigits (by omega) (by omega) member

-- Trailing zeros that were taken off can be put back.
theorem zeros_back (text : List Char) :
    text.rdropWhile (· == '0') ++ List.replicate (text.length - (text.rdropWhile (· == '0')).length) '0' = text := by
  have split : text.reverse.takeWhile (· == '0') ++ text.reverse.dropWhile (· == '0') = text.reverse :=
    List.takeWhile_append_dropWhile
  have zeros : text.reverse.takeWhile (· == '0') =
      List.replicate (text.reverse.takeWhile (· == '0')).length '0' := by
    apply List.eq_replicate_of_mem
    intro ch member
    simpa using List.mem_takeWhile_imp member
  have lengths := congrArg List.length split
  rw [List.length_append,List.length_reverse] at lengths
  have dropped : text.length - (text.rdropWhile (· == '0')).length = (text.reverse.takeWhile (· == '0')).length := by
    rw [List.rdropWhile,List.length_reverse]
    omega
  have back := congrArg List.reverse split
  rw [List.reverse_append,List.reverse_reverse,zeros,List.reverse_replicate] at back
  rw [dropped]
  exact back

end Decimal
