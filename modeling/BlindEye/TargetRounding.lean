import BlindEye.CompactTarget
import BlindEye.Library.Rounding

namespace BlindEye.TargetRounding
open BlindHash CompactTarget Rounding

def byteLength (t : Nat) : Nat := Nat.log 256 t + 1

-- The encoder in unbounded arithmetic: nothing wraps, nothing is cast and nothing is masked.
def wideBits (t : Nat) : Nat :=
  if t = 0 then 0x01000001
  else
    let size := byteLength t
    let compact := if size ≤ 3 then t * 256^(3 - size) else t / 256^(size - 3)
    if 2^23 ≤ compact then (size + 1) * 2^24 + compact / 256 else size * 2^24 + compact

theorem length_lower (positive : 0 < t) : 256^(byteLength t - 1) ≤ t := Nat.pow_log_le_self 256 (by omega)

theorem length_upper (t : Nat) : t < 256^byteLength t := Nat.lt_pow_succ_log_self (by decide) t

theorem length_le (fits : t < 256^n) (positive : 0 < t) : byteLength t ≤ n := by
  by_contra more
  have lower := length_lower positive
  have order : 256^n ≤ 256^(byteLength t - 1) := Nat.pow_le_pow_right (by decide) (by omega)
  omega

theorem byteCount_toNat (tmp : U128) (size : UInt32) (positive : 0 < tmp.toNat) (room : size.toNat + 16 < 2^32) :
    (byteCount tmp size).toNat = size.toNat + byteLength tmp.toNat := by
  have counts : ∀ n (tmp : U128) (size : UInt32), tmp.toNat < 256^n → 0 < tmp.toNat → size.toNat + n < 2^32 →
      (byteCount tmp size).toNat = size.toNat + byteLength tmp.toNat := by
    intro n
    induction n with
    | zero => omega
    | succ n ih =>
      intro tmp size fits positive room
      have more : tmp > 0 := positive
      have shifted : (tmp >>> 8).toNat = tmp.toNat / 256 := by
        rw [BitVec.toNat_ushiftRight,Nat.shiftRight_eq_div_pow]
      have next : (size + 1).toNat = size.toNat + 1 := by
        rw [UInt32.toNat_add]
        exact Nat.mod_eq_of_lt (by change size.toNat + 1 < 2^32; omega)
      rw [byteCount,if_pos more]
      by_cases last : tmp.toNat < 256
      · have done : ¬ tmp >>> 8 > 0 := by
          rw [gt_iff_lt,BitVec.lt_def,shifted,Nat.div_eq_of_lt last]
          exact Nat.lt_irrefl 0
        rw [byteCount,if_neg done,next,byteLength,Nat.log_of_lt last]
      · have left : 0 < (tmp >>> 8).toNat := by omega
        have below : (tmp >>> 8).toNat < 256^n := by
          rw [Nat.pow_succ] at fits
          omega
        rw [ih _ _ below left (by omega),next,shifted,byteLength,byteLength,
          Nat.log_of_one_lt_of_le (by decide) (Nat.not_lt.mp last)]
        omega
  exact counts 16 tmp size (by have bound := tmp.isLt; omega) positive room

theorem compact_word (word : UInt32) (small : word.toNat < 2^24) :
    word &&& 0x00800000 ≠ 0 ↔ 2^23 ≤ word.toNat := by
  have bit : (word &&& 0x00800000).toNat = (word.toNat.testBit 23).toNat * 2^23 := by
    rw [UInt32.toNat_and]
    exact Nat.and_two_pow word.toNat 23
  rw [ne_eq,← UInt32.toNat_inj,bit,Nat.testBit_eq_decide_div_mod_eq]
  change ¬ _ = 0 ↔ _
  simp
  omega

-- A size of one byte over a mantissa that needs no mask.
theorem packed (size word : UInt32) (byte : size.toNat < 256) (small : word.toNat < 2^23) :
    (size <<< 24 ||| (word &&& 0x007fffff)).toNat = size.toNat * 2^24 + word.toNat := by
  have low : (word &&& 0x007fffff).toNat = word.toNat := (mantissa_word word).trans (Nat.mod_eq_of_lt small)
  have high : (size <<< 24).toNat = size.toNat <<< 24 := by
    rw [UInt32.toNat_shiftLeft]
    change size.toNat <<< 24 % 2^32 = _
    rw [Nat.shiftLeft_eq]
    omega
  rw [UInt32.toNat_or,high,low,← Nat.shiftLeft_add_eq_or_of_lt (by omega),Nat.shiftLeft_eq]

theorem compact_lt (t : Nat) :
    (byteLength t ≤ 3 → t * 256^(3 - byteLength t) < 2^24) ∧ (3 < byteLength t → t / 256^(byteLength t - 3) < 2^24) := by
  have upper := length_upper t
  constructor
  · intro short
    calc t * 256^(3 - byteLength t) < 256^byteLength t * 256^(3 - byteLength t) :=
          Nat.mul_lt_mul_of_pos_right upper (Nat.pow_pos (by omega))
      _ = 256^3 := by
          rw [← Nat.pow_add]
          congr 1
          omega
  · intro long
    apply Nat.div_lt_of_lt_mul
    calc t < 256^byteLength t := upper
      _ = 256^(byteLength t - 3) * 2^24 := by
          rw [show 2^24 = 256^3 by norm_num,← Nat.pow_add]
          congr 1
          omega

-- The mantissa before it is renormalised: neither the shift nor the cast drops a high bit.
theorem mantissa_toNat (target : U128) (size : UInt32) (sized : size.toNat = byteLength target.toNat)
    (positive : 0 < target.toNat) :
    (if size ≤ 3 then UInt32.ofBitVec ((target <<< (8 * (3 - size)).toNat).setWidth 32)
      else UInt32.ofBitVec ((target >>> (8 * (size - 3)).toNat).setWidth 32)).toNat =
    if byteLength target.toNat ≤ 3 then target.toNat * 256^(3 - byteLength target.toNat)
      else target.toNat / 256^(byteLength target.toNat - 3) := by
  have word := target.isLt
  have bound : byteLength target.toNat ≤ 16 := length_le (by omega) positive
  obtain ⟨left,right⟩ := compact_lt _
  by_cases short : size ≤ 3
  · have few : byteLength target.toNat ≤ 3 := sized ▸ UInt32.le_iff_toNat_le.mp short
    have small := left few
    rw [if_pos short,if_pos few,UInt32.toNat_ofBitVec,BitVec.toNat_setWidth,BitVec.toNat_shiftLeft,
      shift_right size short,sized,Nat.shiftLeft_eq,bytes_power,Nat.mod_eq_of_lt (by omega),Nat.mod_eq_of_lt (by omega)]
  · have many : 3 < byteLength target.toNat := sized ▸ UInt32.lt_iff_toNat_lt.mp (UInt32.not_le.mp short)
    have small := right many
    rw [if_neg short,if_neg (by omega),UInt32.toNat_ofBitVec,BitVec.toNat_setWidth,BitVec.toNat_ushiftRight,
      shift_left size (UInt32.le_of_lt (UInt32.not_le.mp short)) (by omega),sized,Nat.shiftRight_eq_div_pow,bytes_power,
      Nat.mod_eq_of_lt (by omega)]

theorem bitsFromTarget_wide (target : U128) : (bitsFromTarget target).toNat = wideBits target.toNat := by
  by_cases zero : target = 0
  · rw [zero]
    rfl
  · have positive : 0 < target.toNat := Nat.pos_of_ne_zero fun none => zero (BitVec.eq_of_toNat_eq none)
    have word := target.isLt
    have bound : byteLength target.toNat ≤ 16 := length_le (by omega) positive
    have sized : (byteCount target 0).toNat = byteLength target.toNat := by
      rw [byteCount_toNat target 0 positive (by decide)]
      exact Nat.zero_add _
    have compact := mantissa_toNat target _ sized positive
    have small : (if byteLength target.toNat ≤ 3 then target.toNat * 256^(3 - byteLength target.toNat)
        else target.toNat / 256^(byteLength target.toNat - 3)) < 2^24 := by
      split
      · rename_i short
        exact (compact_lt _).1 short
      · rename_i long
        exact (compact_lt _).2 (Nat.not_le.mp long)
    unfold bitsFromTarget wideBits
    rw [if_neg zero,if_neg (Nat.ne_of_gt positive)]
    simp only [← compact] at small ⊢
    generalize (if byteCount target 0 ≤ 3 then _ else _ : UInt32) = m at small ⊢
    by_cases set : 2^23 ≤ m.toNat
    · have halves : (m >>> 8).toNat = m.toNat / 256 := by
        rw [UInt32.toNat_shiftRight,Nat.shiftRight_eq_div_pow]
        rfl
      have next : (byteCount target 0 + 1).toNat = byteLength target.toNat + 1 := by
        rw [UInt32.toNat_add,sized]
        exact Nat.mod_eq_of_lt (by change _ + 1 < 2^32; omega)
      rw [if_pos ((compact_word m small).mpr set),if_pos set]
      refine (packed (byteCount target 0 + 1) (m >>> 8) (by omega) (by omega)).trans ?_
      rw [next,halves]
    · rw [if_neg (fun high => set ((compact_word m small).mp high)),if_neg set]
      refine (packed (byteCount target 0) m (by omega) (by omega)).trans ?_
      rw [sized]

-- Below the mantissa limit nothing is dropped: the mantissa is the target, moved up.
structure Whole (t e : Nat) : Prop where
  bits : wideBits t = e * 2^24 + t * 256^(3 - e)
  small : t * 256^(3 - e) < 2^23
  short : e ≤ 3

theorem wide_small (positive : 0 < t) (below : t < 2^23) : ∃ e, Whole t e := by
  have lower := length_lower positive
  have bound : byteLength t ≤ 3 := length_le (by omega) positive
  have fits := (compact_lt _).1 bound
  by_cases set : 2^23 ≤ t * 256^(3 - byteLength t)
  · have less : byteLength t ≠ 3 := by
      intro three
      rw [three] at set
      omega
    have moved : t * 256^(3 - byteLength t) / 256 = t * 256^(3 - (byteLength t + 1)) := by
      rw [show 3 - byteLength t = 3 - (byteLength t + 1) + 1 by omega,Nat.pow_succ,← Nat.mul_assoc]
      exact Nat.mul_div_cancel _ (by omega)
    refine ⟨byteLength t + 1,?_,by omega,by omega⟩
    simp only [wideBits]
    rw [if_neg (by omega),if_pos bound,if_pos set,moved]
  · refine ⟨byteLength t,?_,by omega,bound⟩
    simp only [wideBits]
    rw [if_neg (by omega),if_pos bound,if_neg set]

-- From the limit on, `k` bytes are dropped and the size says so.
theorem wide_large (large : 2^23 ≤ t) :
    ∃ k, 0 < k ∧ Drops 256 (2^15) t k ∧ wideBits t = (k + 3) * 2^24 + t / 256^k := by
  have positive : 0 < t := by omega
  have lower := length_lower positive
  have upper := length_upper t
  have long : 3 ≤ byteLength t := by
    by_contra short
    have order : 256^byteLength t ≤ 256^2 := Nat.pow_le_pow_right (by omega) (by omega)
    omega
  obtain ⟨n,length⟩ := Nat.exists_eq_add_of_le long
  rw [length] at lower upper
  have below : t < 2^24 * 256^n := by
    rw [show (2 : Nat)^24 = 256^3 by norm_num,← Nat.pow_add]
    exact upper
  have above : 2^16 * 256^n ≤ t := by
    rw [show (2 : Nat)^16 = 256^2 by norm_num,← Nat.pow_add,show 2 + n = 3 + n - 1 by omega]
    exact lower
  have compact : (if byteLength t ≤ 3 then t * 256^(3 - byteLength t) else t / 256^(byteLength t - 3)) = t / 256^n := by
    rw [length]
    split
    · have zero : n = 0 := by omega
      simp [zero]
    · rw [Nat.add_sub_cancel_left]
  have power : 0 < 256^n := Nat.pow_pos (by omega)
  by_cases set : 2^23 ≤ t / 256^n
  · have reached : 2^23 * 256^n ≤ t := (Nat.le_div_iff_mul_le power).mp set
    refine ⟨n + 1,by omega,⟨?_,.inr ?_⟩,?_⟩
    · rw [Nat.pow_succ]
      omega
    · rw [Nat.pow_succ]
      omega
    · simp only [wideBits,compact]
      rw [if_neg (by omega),if_pos set,length,Nat.div_div_eq_div_mul,← Nat.pow_succ,Nat.add_comm 3 n,
        Nat.add_right_comm n 3 1]
  · have less : t < 2^23 * 256^n := (Nat.div_lt_iff_lt_mul power).mp (Nat.not_le.mp set)
    have some : 0 < n := by
      rcases Nat.eq_zero_or_pos n with zero | some
      · rw [zero] at less
        omega
      · exact some
    refine ⟨n,some,⟨by omega,.inr (by omega)⟩,?_⟩
    simp only [wideBits,compact]
    rw [if_neg (by omega),if_neg set,length,Nat.add_comm 3 n]

theorem packed_parts (word : bits.toNat = e * 2^24 + m) (small : m < 2^23) : exponent bits = e ∧ mantissa bits = m := by
  unfold exponent mantissa
  omega

theorem drops_few {target : U128} (drops : Drops 256 (2^15) target.toNat k) : k ≤ 14 := by
  have word := target.isLt
  rcases drops.needed with none | needed
  · omega
  · by_contra more
    have order : 256^15 ≤ 256^k := Nat.pow_le_pow_right (by omega) (by omega)
    omega

-- One encoding and decoding: how many bytes it drops, what it keeps and where it is exact.
structure Rounds (target : U128) (k : Nat) : Prop where
  drops : Drops 256 (2^15) target.toNat k
  kept : law (bitsFromTarget target) = keep 256 target.toNat k
  inside : exponent (bitsFromTarget target) ≤ 17
  whole : 0 < target.toNat → 256^(3 - exponent (bitsFromTarget target)) ∣ mantissa (bitsFromTarget target)
  shape : 0 < k → wideBits target.toNat = (k + 3) * 2^24 + target.toNat / 256^k

theorem target_rounds (target : U128) : ∃ k, Rounds target k := by
  have wide := bitsFromTarget_wide target
  rcases Nat.eq_zero_or_pos target.toNat with zero | positive
  · have encoded : bitsFromTarget target = 0x01000001 := by
      rw [zero] at wide
      exact UInt32.toNat_inj.mp wide
    refine ⟨0,⟨by omega,.inl rfl⟩,?_,?_,by omega,by omega⟩
    · rw [encoded,zero]
      rfl
    · rw [encoded]
      change 1 ≤ 17
      omega
  · by_cases below : target.toNat < 2^23
    · obtain ⟨e,whole⟩ := wide_small positive below
      obtain ⟨size,rest⟩ := packed_parts (wide.trans whole.bits) whole.small
      have short := whole.short
      refine ⟨0,⟨by omega,.inl rfl⟩,?_,by omega,?_,by omega⟩
      · rw [law,size,rest,if_pos short,keep_all]
        exact Nat.mul_div_cancel _ (Nat.pow_pos (by omega))
      · intro _
        rw [size,rest]
        exact Nat.dvd_mul_left _ _
    · obtain ⟨k,some,drops,shape⟩ := wide_large (Nat.not_lt.mp below)
      have small : target.toNat / 256^k < 2^23 := (Nat.div_lt_iff_lt_mul (Nat.pow_pos (by omega))).mpr drops.fits
      obtain ⟨size,rest⟩ := packed_parts (wide.trans shape) small
      have few := drops_few drops
      refine ⟨k,drops,?_,by omega,?_,fun _ => shape⟩
      · rw [law,size,rest,if_neg (by omega),Nat.add_sub_cancel]
        rfl
      · intro _
        rw [size,show 3 - (k + 3) = 0 by omega]
        exact Nat.one_dvd _

def rounded (target : U128) : U128 := targetFromBits (bitsFromTarget target)

theorem rounded_law (rounds : Rounds target k) : (rounded target).toNat = law (bitsFromTarget target) := by
  have inside := rounds.inside
  have below := keep_le 256 target.toNat k
  have word := target.isLt
  have kept := rounds.kept
  rw [rounded,decoded,if_pos (by omega),Nat.mod_eq_of_lt (by omega)]

theorem rounded_keep (rounds : Rounds target k) : (rounded target).toNat = keep 256 target.toNat k :=
  (rounded_law rounds).trans rounds.kept

theorem rounded_bits (rounds : Rounds target k) : bitsFromTarget (rounded target) = bitsFromTarget target := by
  have kept := rounded_keep rounds
  rcases Nat.eq_zero_or_pos k with rfl | some
  · rw [keep_all] at kept
    rw [BitVec.eq_of_toNat_eq kept]
  · obtain ⟨j,again⟩ := target_rounds (rounded target)
    have drops := keep_drops (by omega) rounds.drops
    rw [← kept] at drops
    have same : j = k := drops_unique (by omega) again.drops drops
    subst same
    apply UInt32.toNat_inj.mp
    rw [bitsFromTarget_wide,bitsFromTarget_wide,again.shape some,rounds.shape some,kept,keep_quotient (by omega)]

-- The machine functions compute what unbounded arithmetic does, and the decoder
-- shifts no set bit out.
structure Lossless (target : U128) : Prop where
  encoded : (bitsFromTarget target).toNat = wideBits target.toNat
  decoded : (targetFromBits (bitsFromTarget target)).toNat = law (bitsFromTarget target)
  whole : 0 < target.toNat → 256^(3 - exponent (bitsFromTarget target)) ∣ mantissa (bitsFromTarget target)

theorem rounding_safe :
    (∀ t, rounded t ≤ t) ∧ (∀ t, 1 ≤ t.toNat → 1 ≤ (rounded t).toNat) ∧
    (∀ t, 1 ≤ t.toNat → (t.toNat - (rounded t).toNat) * 2^15 < t.toNat) ∧
    (∀ t u, t ≤ u → rounded t ≤ rounded u) ∧
    (∀ t, 1 ≤ t.toNat → bitsFromTarget (rounded t) = bitsFromTarget t) ∧
    (∀ t, Lossless t) := by
  refine ⟨?_,?_,?_,?_,?_,?_⟩
  · intro t
    obtain ⟨k,rounds⟩ := target_rounds t
    rw [BitVec.le_def,rounded_keep rounds]
    exact keep_le 256 _ k
  · intro t positive
    obtain ⟨k,rounds⟩ := target_rounds t
    rw [rounded_keep rounds]
    exact keep_positive (by omega) (by omega) rounds.drops positive
  · intro t positive
    obtain ⟨k,rounds⟩ := target_rounds t
    rw [rounded_keep rounds]
    exact keep_error (by omega) (by omega) rounds.drops positive
  · intro t u order
    obtain ⟨j,first⟩ := target_rounds t
    obtain ⟨k,second⟩ := target_rounds u
    rw [BitVec.le_def,rounded_keep first,rounded_keep second]
    exact keep_monotone (by omega) first.drops second.drops (BitVec.le_def.mp order)
  · intro t _
    obtain ⟨k,rounds⟩ := target_rounds t
    exact rounded_bits rounds
  · intro t
    obtain ⟨k,rounds⟩ := target_rounds t
    exact ⟨bitsFromTarget_wide t,rounded_law rounds,rounds.whole⟩

end BlindEye.TargetRounding
