import BlindEye.Library.Epochs
import BlindEye.Protocol

namespace BlindEye.Emission
open Finset Protocol

def subsidy (height : UInt64) : Nat := (EmissionSchedule.default.blockReward height).toNat

-- The subsidies of the heights 1 to `n`.
def subsidyThrough (n : Nat) : Nat := ∑ i ∈ range n, subsidy (UInt64.ofNat (i + 1))

theorem subsidy_le (height : UInt64) :
    subsidy height ≤ initialRewardUnits.toNat / 2^(height.toNat / halvingIntervalBlocks.toNat) := by
  unfold subsidy EmissionSchedule.blockReward
  dsimp only
  split
  · exact Nat.zero_le _
  · rename_i early
    have halvings : (height / EmissionSchedule.default.halvingInterval).toNat < 34 := by
      have := UInt64.lt_iff_toNat_lt.mp (UInt64.not_le.mp early)
      exact this
    rw [UInt64.toNat_shiftRight,Nat.mod_eq_of_lt (by omega),Nat.shiftRight_eq_div_pow,UInt64.toNat_div]
    exact Nat.le_refl _

theorem subsidyThrough_le (bound : n < 2^64) : subsidyThrough n ≤ maxSupplyUnits.toNat := by
  have interval : 0 < halvingIntervalBlocks.toNat := by decide
  have halved : ∀ i ∈ range n, subsidy (UInt64.ofNat (i + 1)) ≤
      initialRewardUnits.toNat / 2^((i + 1) / halvingIntervalBlocks.toNat) := by
    intro i member
    have small : i + 1 < UInt64.size := by have := mem_range.mp member; rw [UInt64.size]; omega
    have step := subsidy_le (UInt64.ofNat (i + 1))
    rwa [UInt64.toNat_ofNat_of_lt' small] at step
  calc subsidyThrough n
      ≤ ∑ i ∈ range n, initialRewardUnits.toNat / 2^((i + 1) / halvingIntervalBlocks.toNat) := sum_le_sum halved
    _ ≤ ∑ i ∈ range (n + 1), initialRewardUnits.toNat / 2^(i / halvingIntervalBlocks.toNat) := by
        rw [sum_range_succ']; exact Nat.le_add_right _ _
    _ ≤ halvingIntervalBlocks.toNat * (2 * initialRewardUnits.toNat) := Epochs.halving_le _ interval _
    _ = maxSupplyUnits.toNat := by decide

end BlindEye.Emission
