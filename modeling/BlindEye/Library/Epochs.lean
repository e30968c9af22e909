import Mathlib.Algebra.BigOperators.Intervals
import Mathlib.Data.Nat.Choose.Sum
import Mathlib.Algebra.Order.Ring.GeomSum

namespace Epochs
open Finset

-- A function that is constant on epochs of `width` steps, summed over whole epochs.
theorem sum_epochs (f : Nat → Nat) (positive : 0 < width) (epochs : Nat) :
    ∑ i ∈ range (epochs * width), f (i / width) = width * ∑ k ∈ range epochs, f k := by
  induction epochs with
  | zero => simp
  | succ epochs ih =>
    have last : ∑ i ∈ range width, f ((epochs * width + i) / width) = width * f epochs := by
      have constant : ∀ i ∈ range width, f ((epochs * width + i) / width) = f epochs := by
        intro i member
        rw [Nat.mul_comm,Nat.mul_add_div positive,Nat.div_eq_of_lt (mem_range.mp member),Nat.add_zero]
      rw [sum_congr rfl constant]
      simp
    rw [Nat.succ_mul,sum_range_add,ih,last,sum_range_succ,Nat.mul_add]

-- The first epoch, whole or cut short, and the epochs after it.
theorem sum_first (f : Nat → Nat) (positive : 0 < width) (n : Nat) :
    ∑ i ∈ range n, f (i / width) =
      f 0 * min width n + ∑ i ∈ range (n - min width n), f (i / width + 1) := by
  rcases Nat.le_total n width with short | long
  · have constant : ∀ i ∈ range n, f (i / width) = f 0 := by
      intro i member
      rw [Nat.div_eq_of_lt (Nat.lt_of_lt_of_le (mem_range.mp member) short)]
    rw [Nat.min_eq_right short,Nat.sub_self,sum_congr rfl constant]
    simp [Nat.mul_comm]
  · obtain ⟨rest,rfl⟩ := Nat.exists_eq_add_of_le long
    have first := sum_epochs f positive 1
    have later : ∀ i ∈ range rest, f ((width + i) / width) = f (i / width + 1) := by
      intro i _
      rw [Nat.add_div_left i positive]
    simp only [Nat.one_mul,range_one,sum_singleton] at first
    rw [Nat.min_eq_left long,Nat.add_sub_cancel_left,sum_range_add,first,sum_congr rfl later,Nat.mul_comm]

-- What is halved every epoch never pays out more than two full epochs.
theorem halving_le (amount : Nat) (positive : 0 < width) (n : Nat) :
    ∑ i ∈ range n, amount / 2^(i / width) ≤ width * (2 * amount) := by
  have more : range n ⊆ range (n * width) := range_subset_range.mpr (Nat.le_mul_of_pos_right n positive)
  have geometric : ∑ k ∈ range n, amount / 2^k ≤ amount * 2 / (2 - 1) := Nat.geom_sum_le (by decide) amount n
  calc ∑ i ∈ range n, amount / 2^(i / width)
      ≤ ∑ i ∈ range (n * width), amount / 2^(i / width) := sum_le_sum_of_subset more
    _ = width * ∑ k ∈ range n, amount / 2^k := sum_epochs (fun k => amount / 2^k) positive n
    _ ≤ width * (2 * amount) := Nat.mul_le_mul_left _ (by omega)

end Epochs
