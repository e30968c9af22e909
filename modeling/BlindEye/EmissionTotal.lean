import BlindEye.Library.Epochs
import BlindEye.Protocol

namespace BlindEye.EmissionTotal
open Finset Protocol EmissionSchedule

variable {schedule : EmissionSchedule} {total reward : U128} {remaining height : UInt64} {count : UInt32}

-- The reward of each block of one epoch.
def epochReward (schedule : EmissionSchedule) (epoch : Nat) : Nat :=
  if epoch < schedule.maxHalvings.toNat then schedule.initialReward.toNat / 2^epoch else 0

-- What the next `n` blocks earn when `epoch` epochs are over.
def earned (schedule : EmissionSchedule) (epoch n : Nat) : Nat :=
  ∑ i ∈ range n, epochReward schedule (i / schedule.halvingInterval.toNat + epoch)

structure Usable (schedule : EmissionSchedule) : Prop where
  interval : 0 < schedule.halvingInterval.toNat
  halvings : schedule.maxHalvings.toNat ≤ 64

theorem blockReward_toNat (usable : Usable schedule) (height : UInt64) :
    (schedule.blockReward height).toNat = epochReward schedule (height.toNat / schedule.halvingInterval.toNat) := by
  have epoch : (height / schedule.halvingInterval).toNat = height.toNat / schedule.halvingInterval.toNat := UInt64.toNat_div _ _
  have most : schedule.maxHalvings.toUInt64.toNat = schedule.maxHalvings.toNat := by simp
  have halvings := usable.halvings
  unfold blockReward epochReward
  dsimp only
  by_cases past : height / schedule.halvingInterval ≥ schedule.maxHalvings.toUInt64
  · have reached := UInt64.le_iff_toNat_le.mp past
    rw [most,epoch] at reached
    rw [if_pos past,if_neg (Nat.not_lt.mpr reached)]
    rfl
  · have early := UInt64.lt_iff_toNat_lt.mp (UInt64.not_le.mp past)
    rw [most,epoch] at early
    rw [if_neg past,if_pos early,UInt64.toNat_shiftRight,epoch,Nat.mod_eq_of_lt (by omega),Nat.shiftRight_eq_div_pow]

theorem earned_first (usable : Usable schedule) (epoch n : Nat) :
    earned schedule epoch n = epochReward schedule epoch * min schedule.halvingInterval.toNat n +
      earned schedule (epoch + 1) (n - min schedule.halvingInterval.toNat n) := by
  have split := Epochs.sum_first (fun e => epochReward schedule (e + epoch)) usable.interval n
  simp only [Nat.zero_add] at split
  unfold earned
  rw [split]
  congr 1
  apply sum_congr rfl
  intro i _
  rw [Nat.add_right_comm,Nat.add_assoc]

theorem earned_none (none : ∀ e, epoch ≤ e → epochReward schedule e = 0) : earned schedule epoch n = 0 := by
  apply sum_eq_zero
  intro i _
  exact none _ (Nat.le_add_left _ _)

theorem epochReward_le (schedule : EmissionSchedule) (e : Nat) : epochReward schedule e ≤ schedule.initialReward.toNat / 2^e := by
  unfold epochReward
  split
  · exact Nat.le_refl _
  · exact Nat.zero_le _

-- An epoch whose reward has been halved to nothing is followed by none that pays.
theorem epochReward_spent (spent : schedule.initialReward.toNat / 2^epoch = 0) (later : epoch ≤ e) :
    epochReward schedule e = 0 := by
  have bound := epochReward_le schedule e
  have order : schedule.initialReward.toNat / 2^e ≤ schedule.initialReward.toNat / 2^epoch :=
    Nat.div_le_div_left (Nat.pow_le_pow_right (by omega) later) (Nat.pow_pos (by omega))
  omega

theorem epochReward_done (done : schedule.maxHalvings.toNat ≤ e) : epochReward schedule e = 0 := if_neg (by omega)

theorem add128_some (fits : x.toNat + y.toNat < 2^128) : ∃ z, add128 x y = some z ∧ z.toNat = x.toNat + y.toNat := by
  refine ⟨x + y,if_pos fits,?_⟩
  rw [BitVec.toNat_add,Nat.mod_eq_of_lt fits]

theorem mul128_some (fits : x.toNat * y.toNat < 2^128) : ∃ z, mul128 x y = some z ∧ z.toNat = x.toNat * y.toNat := by
  refine ⟨x * y,if_pos fits,?_⟩
  rw [BitVec.toNat_mul,Nat.mod_eq_of_lt fits]

theorem widened (word : UInt64) : (word.toBitVec.setWidth 128).toNat = word.toNat := by
  have bound := word.toNat_lt
  rw [BitVec.toNat_setWidth]
  exact Nat.mod_eq_of_lt (by change word.toNat < _; omega)

theorem issuedLoop_stop (stop : ¬ (remaining > 0 ∧ count < schedule.maxHalvings)) :
    issuedLoop schedule total remaining reward count = some total := by
  rw [issuedLoop,dif_neg stop]

-- One turn of the loop: the blocks of one epoch are paid, and nothing overflows.
theorem issuedLoop_step (total reward : U128) (more : remaining > 0 ∧ count < schedule.maxHalvings)
    (fits : total.toNat + reward.toNat * min schedule.halvingInterval.toNat remaining.toNat < 2^128) :
    ∃ after, after.toNat = total.toNat + reward.toNat * min schedule.halvingInterval.toNat remaining.toNat ∧
      issuedLoop schedule total remaining reward count =
        if reward >>> 1 = 0 then some after
        else issuedLoop schedule after (remaining - min schedule.halvingInterval remaining) (reward >>> 1) (count + 1) := by
  have blocks : ((min schedule.halvingInterval remaining).toBitVec.setWidth 128).toNat =
      min schedule.halvingInterval.toNat remaining.toNat := by
    rw [widened]
    exact UInt64.toNat_min _ _
  obtain ⟨amount,paid,amounted⟩ := mul128_some (x := reward) (y := (min schedule.halvingInterval remaining).toBitVec.setWidth 128)
    (by rw [blocks]; omega)
  rw [blocks] at amounted
  obtain ⟨after,summed,totalled⟩ := add128_some (x := total) (y := amount) (by rw [amounted]; exact fits)
  refine ⟨after,by rw [totalled,amounted],?_⟩
  rw [issuedLoop,dif_pos more]
  simp only [paid,summed]

-- The loop keeps the reward of the epoch it is in and adds what the blocks that
-- remain earn. No sum or product of it overflows when that total fits.
theorem issuedLoop_total (usable : Usable schedule) (rewarded : reward.toNat = schedule.initialReward.toNat / 2^count.toNat)
    (fits : total.toNat + earned schedule count.toNat remaining.toNat < 2^128) :
    ∃ issued, issuedLoop schedule total remaining reward count = some issued ∧
      issued.toNat = total.toNat + earned schedule count.toNat remaining.toNat := by
  have halvings := usable.halvings
  obtain ⟨n,left⟩ : ∃ n, schedule.maxHalvings.toNat ≤ count.toNat + n := ⟨_,Nat.le_add_left _ _⟩
  induction n generalizing total remaining reward count with
  | zero =>
    have stop : ¬ (remaining > 0 ∧ count < schedule.maxHalvings) := by
      intro more
      have below := UInt32.lt_iff_toNat_lt.mp more.2
      omega
    refine ⟨total,issuedLoop_stop stop,?_⟩
    rw [earned_none fun e later => epochReward_done (by omega),Nat.add_zero]
  | succ n ih =>
    by_cases more : remaining > 0 ∧ count < schedule.maxHalvings
    · have below := UInt32.lt_iff_toNat_lt.mp more.2
      have current : epochReward schedule count.toNat = reward.toNat := by
        rw [epochReward,if_pos below,rewarded]
      have next : (count + 1).toNat = count.toNat + 1 := by
        rw [UInt32.toNat_add]
        exact Nat.mod_eq_of_lt (by change count.toNat + 1 < _; omega)
      have rest : (remaining - min schedule.halvingInterval remaining).toNat =
          remaining.toNat - min schedule.halvingInterval.toNat remaining.toNat := by
        rw [UInt64.toNat_sub_of_le _ _ (UInt64.le_iff_toNat_le.mpr (by rw [UInt64.toNat_min]; omega)),UInt64.toNat_min]
      have halved : (reward >>> 1).toNat = schedule.initialReward.toNat / 2^(count + 1).toNat := by
        rw [BitVec.toNat_ushiftRight,Nat.shiftRight_eq_div_pow,rewarded,Nat.div_div_eq_div_mul,← Nat.pow_add,next]
      have split := earned_first usable count.toNat remaining.toNat
      rw [current] at split
      rw [split] at fits ⊢
      obtain ⟨after,paid,turn⟩ := issuedLoop_step total reward more (by omega)
      rw [turn]
      split
      · rename_i spent
        have nothing : ∀ e, count.toNat + 1 ≤ e → epochReward schedule e = 0 := by
          intro e later
          rw [spent,next] at halved
          exact epochReward_spent halved.symm later
        refine ⟨after,rfl,?_⟩
        rw [paid,earned_none nothing]
        omega
      · obtain ⟨issued,ended,sum⟩ : ∃ issued, issuedLoop schedule after
              (remaining - min schedule.halvingInterval remaining) (reward >>> 1) (count + 1) = some issued ∧
            issued.toNat = after.toNat + earned schedule (count + 1).toNat
              (remaining - min schedule.halvingInterval remaining).toNat :=
          ih halved (by rw [next,rest]; omega) (by omega)
        refine ⟨issued,ended,?_⟩
        rw [sum,next,rest,paid]
        omega
    · refine ⟨total,issuedLoop_stop more,?_⟩
      by_cases finished : remaining > 0
      · have done : ¬ count < schedule.maxHalvings := fun below => more ⟨finished,below⟩
        rw [UInt32.lt_iff_toNat_lt] at done
        rw [earned_none fun e later => epochReward_done (by omega),Nat.add_zero]
      · have nothing : remaining.toNat = 0 := Nat.eq_zero_of_not_pos finished
        rw [nothing,earned,range_zero,sum_empty,Nat.add_zero]

theorem earned_le (schedule : EmissionSchedule) (n : Nat) : earned schedule 0 n ≤ n * schedule.initialReward.toNat := by
  calc earned schedule 0 n ≤ ∑ _i ∈ range n, schedule.initialReward.toNat := by
        apply sum_le_sum
        intro i _
        exact Nat.le_trans (epochReward_le _ _) (Nat.div_le_self _ _)
    _ = n * schedule.initialReward.toNat := by simp

theorem earned_halved (usable : Usable schedule) (n : Nat) :
    earned schedule 0 n ≤ 2 * schedule.initialReward.toNat * schedule.halvingInterval.toNat := by
  calc earned schedule 0 n ≤ ∑ i ∈ range n, schedule.initialReward.toNat / 2^(i / schedule.halvingInterval.toNat) := by
        apply sum_le_sum
        intro i _
        exact epochReward_le _ _
    _ ≤ schedule.halvingInterval.toNat * (2 * schedule.initialReward.toNat) := Epochs.halving_le _ usable.interval n
    _ = 2 * schedule.initialReward.toNat * schedule.halvingInterval.toNat := Nat.mul_comm _ _

-- The rewards of the heights 0 to `height`, as the chain pays them.
def rewardsThrough (schedule : EmissionSchedule) (height : Nat) : Nat :=
  ∑ i ∈ range (height + 1), (schedule.blockReward (UInt64.ofNat i)).toNat

theorem rewardsThrough_earned {n : Nat} (usable : Usable schedule) (bound : n < 2^64) :
    rewardsThrough schedule n = earned schedule 0 (n + 1) := by
  apply sum_congr rfl
  intro i member
  have small : i < UInt64.size := by
    have below := mem_range.mp member
    rw [UInt64.size]
    omega
  rw [blockReward_toNat usable,UInt64.toNat_ofNat_of_lt' small,Nat.add_zero]

theorem issuedThrough_total (usable : Usable schedule) (height : UInt64) (bound : height.toNat < 2^64 - 1) :
    ∃ issued, schedule.issuedThrough height = some issued ∧ issued.toNat = rewardsThrough schedule height.toNat := by
  have initial := schedule.initialReward.toNat_lt
  obtain ⟨blocks,counted⟩ : ∃ blocks, checkedAdd height 1 = some blocks := by
    refine ⟨height + 1,if_pos ?_⟩
    change height.toNat + 1 < 2^64
    omega
  have next : blocks.toNat = height.toNat + 1 := checkedAdd_exact.mp counted
  have most := earned_le schedule (height.toNat + 1)
  have product : (height.toNat + 1) * schedule.initialReward.toNat ≤ (2^64 - 1) * (2^64 - 1) :=
    Nat.mul_le_mul (by omega) (by omega)
  have start : (schedule.initialReward.toBitVec.setWidth 128).toNat = schedule.initialReward.toNat / 2^(0 : UInt32).toNat := by
    rw [widened]
    exact (Nat.div_one _).symm
  obtain ⟨issued,ended,sum⟩ : ∃ issued, issuedLoop schedule 0 blocks (schedule.initialReward.toBitVec.setWidth 128) 0 =
      some issued ∧ issued.toNat = (0 : U128).toNat + earned schedule (0 : UInt32).toNat blocks.toNat := by
    apply issuedLoop_total usable start
    change 0 + earned schedule 0 blocks.toNat < _
    rw [next]
    omega
  refine ⟨issued,?_,?_⟩
  · rw [issuedThrough,counted]
    exact ended
  · rw [rewardsThrough_earned usable (by omega),← next,sum]
    exact Nat.zero_add _

theorem default_usable : Usable EmissionSchedule.default := ⟨by decide,by decide⟩

theorem default_capped : 2 * EmissionSchedule.default.initialReward.toNat * EmissionSchedule.default.halvingInterval.toNat ≤
    EmissionSchedule.default.maximumSupply.toNat := by decide

theorem issued_capped (usable : Usable schedule) (height : UInt64) (bound : height.toNat < 2^64 - 1)
    (cap : 2 * schedule.initialReward.toNat * schedule.halvingInterval.toNat ≤ schedule.maximumSupply.toNat) :
    rewardsThrough schedule height.toNat ≤ schedule.maximumSupply.toNat := by
  rw [rewardsThrough_earned usable (by omega)]
  exact Nat.le_trans (earned_halved usable _) cap

theorem issued_exact :
    (∀ (maximumSupply halvingInterval initialReward : UInt64) (maxHalvings : UInt32), 1 ≤ halvingInterval →
      maxHalvings ≤ 64 → ∀ height : UInt64, height.toNat < 2^64 - 1 →
      ∃ issued, (new maximumSupply halvingInterval initialReward maxHalvings).issuedThrough height = some issued ∧
        issued.toNat = ∑ i ∈ range (height.toNat + 1),
          ((new maximumSupply halvingInterval initialReward maxHalvings).blockReward (UInt64.ofNat i)).toNat ∧
        (2 * initialReward.toNat * halvingInterval.toNat ≤ maximumSupply.toNat → issued.toNat ≤ maximumSupply.toNat)) ∧
    (∀ height : UInt64, height.toNat < 2^64 - 1 →
      ∃ issued, EmissionSchedule.default.issuedThrough height = some issued ∧ issued.toNat ≤ maxSupplyUnits.toNat) := by
  constructor
  · intro maximumSupply halvingInterval initialReward maxHalvings interval halvings height bound
    have usable : Usable (new maximumSupply halvingInterval initialReward maxHalvings) :=
      ⟨UInt64.le_iff_toNat_le.mp interval,UInt32.le_iff_toNat_le.mp halvings⟩
    obtain ⟨issued,ended,sum⟩ := issuedThrough_total usable height bound
    refine ⟨issued,ended,sum,?_⟩
    intro cap
    rw [sum]
    exact issued_capped usable height bound cap
  · intro height bound
    obtain ⟨issued,ended,sum⟩ := issuedThrough_total default_usable height bound
    refine ⟨issued,ended,?_⟩
    rw [sum]
    exact issued_capped default_usable height bound default_capped

theorem issued_exact_default : ∃ issued, EmissionSchedule.default.issuedThrough 2102400 = some issued ∧
    issued.toNat ≤ maxSupplyUnits.toNat := issued_exact.2 2102400 (by decide)

end BlindEye.EmissionTotal
