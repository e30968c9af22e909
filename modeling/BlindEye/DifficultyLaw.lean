import BlindEye.ChainState
import BlindEye.Difficulty
import BlindEye.TargetRounding

namespace BlindEye.DifficultyLaw
open RoundNearest Blockchain BlindHash CompactTarget TargetRounding

variable {n m window txCount : Nat} {bits : UInt32} {ratio : F64} {base : U128}

theorem digits : 0 < 53 := by decide

@[simp] theorem ofNat_value (n : Nat) : (F64.ofNat n).value = round 53 n := rfl

@[simp] theorem half_value : (Number.of 53 0.5).value = 1 / 2 := by decide +kernel

@[simp] theorem two_value : (Number.of 53 2).value = 2 := by decide +kernel

-- The largest u128 is no f64: it rounds up to the power above it.
@[simp] theorem largest_value : (F64.ofNat (2^128 - 1)).value = 2^128 := by decide +kernel

-- A target has 23 digits and whole bytes behind them, or it is the largest of all.
theorem target_digits (bits : UInt32) : (∃ n k, n < 2^23 ∧ (targetFromBits bits).toNat = n * 256^k) ∨
    (targetFromBits bits).toNat = 2^128 - 1 := by
  have small := mantissa_lt bits
  rw [decoded]
  split
  · rename_i inside
    left
    by_cases short : exponent bits ≤ 3
    · have whole := Nat.div_le_self (mantissa bits) (256^(3 - exponent bits))
      rw [Nat.mod_eq_of_lt (law_small short),law,if_pos short]
      exact ⟨_,0,by omega,(Nat.mul_one _).symm⟩
    · obtain ⟨k,more⟩ := Nat.exists_eq_add_of_le (Nat.not_le.mp short).le
      have cut : 2^128 = 2^(128 - 8 * k) * 256^k := by
        rw [← bytes_power,← Nat.pow_add]
        congr 1
        omega
      have rest := Nat.mod_le (mantissa bits) (2^(128 - 8 * k))
      rw [law,if_neg short,show exponent bits - 3 = k by omega,cut,Nat.mul_mod_mul_right]
      exact ⟨_,k,by omega,rfl⟩
  · exact .inr rfl

theorem target_fits (bits : UInt32) :
    Fits 53 (targetFromBits bits).toNat ∨ (targetFromBits bits).toNat = 2^128 - 1 := by
  refine (target_digits bits).imp_left ?_
  rintro ⟨n,k,small,value⟩
  rw [value,← bytes_power]
  refine ⟨n,(8 * k : ℕ),by omega,?_⟩
  rw [zpow_natCast]
  push_cast
  rfl

-- The rule in exact arithmetic: the share that the load leaves, the ratio of the
-- spans, and the target.
def idealTx (txCount : Nat) : ℚ := max 0.55 (min (1 / (1 + txCount * 0.03)) 1)

def idealRatio (actual expected : Nat) : ℚ := max 0.5 (min (actual / expected) 2)

def idealTarget (base actual expected txCount : Nat) : ℚ :=
  max 1 (min (base * idealRatio actual expected * idealTx txCount) (2^128))

theorem idealTx_nonneg (txCount : Nat) : 0 ≤ idealTx txCount := le_max_of_le_left (by norm_num)

theorem idealRatio_nonneg (actual expected : Nat) : 0 ≤ idealRatio actual expected := le_max_of_le_left (by norm_num)

theorem exact_close (value : x = q) (k : Nat) (order : 0 ≤ q) : Close 53 k x q := by
  rw [value]
  exact (Close.refl q).widen (Nat.zero_le k) order order

theorem ofNat_close (n : Nat) : Close 53 1 (F64.ofNat n).value n := Number.close_of (Nat.cast_nonneg n)

theorem ofNat_pos (positive : 0 < n) : 0 < (F64.ofNat n).value := round_pos digits (by exact_mod_cast positive)

theorem txRatio_order : (Number.of 53 0.55).value ≤ (1 : F64).value := by decide +kernel

theorem txRatio_close (txCount : Nat) : Close 53 5 (txRatio txCount).value (idealTx txCount) := by
  have one : ∀ k, Close 53 k (1 : F64).value 1 := fun k => exact_close Number.one_value k zero_le_one
  have rate : Close 53 1 (Number.of 53 0.03).value 0.03 := Number.close_of (by norm_num)
  have least : Close 53 1 (Number.of 53 0.55).value 0.55 := Number.close_of (by norm_num)
  have load := Number.close_mul (ofNat_close txCount) rate (Nat.cast_nonneg _) (by norm_num)
  have sum := Number.close_add (one 3) load
  have above : (0 : ℚ) < 1 + txCount * 0.03 := by positivity
  have positive : 0 < ((1 : F64) + F64.ofNat txCount * .of 53 0.03).value := by
    have larger : (0 : ℚ) ≤ (F64.ofNat txCount * .of 53 0.03).value := Number.nonneg _
    rw [Number.add_value,Number.one_value]
    exact round_pos digits (by linarith)
  have share := Number.close_div (one 0) sum zero_le_one positive above
  have widened := least.widen (by norm_num : 1 ≤ 5) (Number.nonneg _) (by norm_num)
  exact Number.close_clamp share widened (one 5) txRatio_order

theorem retargetRatio_close (some : 0 < expected) :
    Close 53 3 ((F64.ofNat actual / F64.ofNat expected).clamp (.of 53 0.5) (.of 53 2)).value
      (idealRatio actual expected) := by
  have spans := Number.close_div (ofNat_close actual) (ofNat_close expected) (Nat.cast_nonneg _) (ofNat_pos some)
    (by exact_mod_cast some)
  have least : Close 53 3 (Number.of 53 0.5).value 0.5 := exact_close (by rw [half_value]; norm_num) 3 (by norm_num)
  have most : Close 53 3 (Number.of 53 2).value 2 := exact_close two_value 3 (by norm_num)
  exact Number.close_clamp spans least most (by rw [half_value,two_value]; norm_num)

theorem adjusted_close (base : U128) (txCount : Nat) (first : Close 53 3 ratio.value ideal) (order : 0 ≤ ideal) :
    Close 53 11 (adjustedTarget base ratio txCount).value (max 1 (min (base.toNat * ideal * idealTx txCount) (2^128))) := by
  have scaled := Number.close_mul (ofNat_close base.toNat) first (Nat.cast_nonneg _) order
  have loaded := Number.close_mul scaled (txRatio_close txCount) (mul_nonneg (Nat.cast_nonneg _) order)
    (idealTx_nonneg txCount)
  exact Number.close_clamp loaded (exact_close Number.one_value 11 (by norm_num))
    (exact_close largest_value 11 (by norm_num)) (by rw [Number.one_value,largest_value]; norm_num)

theorem toU128_toNat (x : F64) : (F64.toU128 x).toNat = min ⌊x.value⌋₊ (2^128 - 1) := by
  rw [F64.toU128,BitVec.toNat_ofNat]
  exact Nat.mod_eq_of_lt (by omega)

theorem rounded_le (t : U128) : (rounded t).toNat ≤ t.toNat := by
  obtain ⟨k,rounds⟩ := target_rounds t
  rw [rounded_keep rounds]
  exact Rounding.keep_le 256 _ k

theorem rounded_positive (positive : 0 < t.toNat) : 0 < (rounded t).toNat := by
  obtain ⟨k,rounds⟩ := target_rounds t
  rw [rounded_keep rounds]
  exact Rounding.keep_positive (by omega) (by omega) rounds.drops positive

theorem rounded_error (positive : 0 < t.toNat) : (t.toNat - (rounded t).toNat) * 2^15 < t.toNat := by
  obtain ⟨k,rounds⟩ := target_rounds t
  rw [rounded_keep rounds]
  exact Rounding.keep_error (by omega) (by omega) rounds.drops positive

theorem rounded_order (order : t.toNat ≤ u.toNat) : (rounded t).toNat ≤ (rounded u).toNat := by
  obtain ⟨j,first⟩ := target_rounds t
  obtain ⟨k,second⟩ := target_rounds u
  rw [rounded_keep first,rounded_keep second]
  exact Rounding.keep_monotone (by omega) first.drops second.drops order

-- The target that a header with the new bits stands for.
def encoded (x : F64) : Nat := (rounded (F64.toU128 x)).toNat

theorem encoded_le (x : F64) : (encoded x : ℚ) ≤ x.value := by
  have cut := rounded_le (F64.toU128 x)
  rw [toU128_toNat] at cut
  calc (encoded x : ℚ) ≤ (⌊x.value⌋₊ : ℚ) := by exact_mod_cast cut.trans (min_le_left _ _)
    _ ≤ x.value := Nat.floor_le x.nonneg

theorem whole_positive (one : 1 ≤ x.value) : 0 < (F64.toU128 x).toNat := by
  have floor : 1 ≤ ⌊x.value⌋₊ := Nat.le_floor (by exact_mod_cast one)
  rw [toU128_toNat]
  omega

theorem encoded_positive (one : 1 ≤ x.value) : 0 < encoded x := rounded_positive (whole_positive one)

theorem le_encoded (one : 1 ≤ x.value) (most : x.value ≤ 2^128) : x.value ≤ encoded x * (32768 / 32767) + 1 := by
  have error := rounded_error (whole_positive one)
  have below := rounded_le (F64.toU128 x)
  have whole := toU128_toNat x
  have cut : x.value ≤ ((F64.toU128 x).toNat : ℚ) + 1 := by
    rcases Nat.lt_or_ge ⌊x.value⌋₊ (2^128) with inside | outside
    · rw [whole,min_eq_left (by omega)]
      exact (Nat.lt_floor_add_one x.value).le
    · rw [whole,min_eq_right (by omega)]
      push_cast
      linarith
  have kept : ((F64.toU128 x).toNat : ℚ) * 32767 ≤ encoded x * 32768 := by
    have counted : (F64.toU128 x).toNat * 32767 ≤ encoded x * 32768 := by
      unfold encoded
      omega
    exact_mod_cast counted
  linarith

theorem encoded_order {x y : F64} (order : x.value ≤ y.value) : encoded x ≤ encoded y := by
  apply rounded_order
  rw [toU128_toNat,toU128_toNat]
  exact min_le_min_right _ (Nat.floor_le_floor order)

theorem adjusted_value (base : U128) (ratio : F64) (txCount : Nat) : (adjustedTarget base ratio txCount).value =
    max 1 (min (F64.ofNat base.toNat * ratio * txRatio txCount).value (2^128)) := by
  rw [adjustedTarget,Number.clamp_value (by rw [Number.one_value,largest_value]; norm_num),Number.one_value,largest_value]

theorem adjusted_one (base : U128) (ratio : F64) (txCount : Nat) : 1 ≤ (adjustedTarget base ratio txCount).value := by
  rw [adjusted_value]
  exact le_max_left _ _

theorem adjusted_most (base : U128) (ratio : F64) (txCount : Nat) : (adjustedTarget base ratio txCount).value ≤ 2^128 := by
  rw [adjusted_value]
  exact max_le (by norm_num) (min_le_right _ _)

-- Rounding and encoding move the target by less than a part in 2^14 and one.
theorem encoded_near (close : Close 53 11 x.value ideal) (one : 1 ≤ x.value) (most : x.value ≤ 2^128) (order : 0 ≤ ideal) :
    encoded x ≤ ideal * (1 + 1 / 2^48) ∧ ideal ≤ (encoded x + 1) * (1 + 1 / 2^14) := by
  have loose : slack 53^11 ≤ 1 + 1 / 2^48 := by norm_num [slack]
  have above := mul_le_mul_of_nonneg_left loose order
  have below := mul_le_mul_of_nonneg_left loose x.nonneg
  have low := encoded_le x
  have high := le_encoded one most
  have left := close.left
  have right := close.right
  have some : (0 : ℚ) ≤ encoded x := Nat.cast_nonneg _
  refine ⟨by linarith,?_⟩
  calc ideal ≤ x.value * (1 + 1 / 2^48) := by linarith
    _ ≤ (encoded x * (32768 / 32767) + 1) * (1 + 1 / 2^48) := mul_le_mul_of_nonneg_right high (by norm_num)
    _ ≤ (encoded x + 1) * (1 + 1 / 2^14) := by
        norm_num
        linarith

theorem txRatio_least (txCount : Nat) : (Number.of 53 0.55).value ≤ (txRatio txCount).value := by
  rw [txRatio,Number.clamp_value txRatio_order]
  exact le_max_left _ _

theorem txRatio_most (txCount : Nat) : (txRatio txCount).value ≤ 1 := by
  rw [txRatio,Number.clamp_value txRatio_order,Number.one_value]
  refine max_le ?_ (min_le_right _ _)
  have order := txRatio_order
  rwa [Number.one_value] at order

-- How far one block moves the target.
structure Stepped (before after : Nat) : Prop where
  mineable : 1 ≤ after
  eased : after ≤ max 1 (2 * before)
  raised : before < 4 * (after + 1)

theorem product_le {x y : F64} {limit : ℚ} (fits : Fits 53 limit) (order : x.value * y.value ≤ limit) :
    (x * y).value ≤ limit := by
  rw [Number.mul_value]
  exact round_le digits fits order

theorem half_within {x : F64} (least : 1 / 2 ≤ x.value) (most : x.value ≤ 2) : Within 1 x.value :=
  Within.between (by linarith) (by norm_num; exact most)

-- The load on the way to its share.
theorem load_within (few : txCount < 2^64) : Within 70 (F64.ofNat txCount * .of 53 0.03).value ∧
    Within 70 (1 + F64.ofNat txCount * .of 53 0.03 : F64).value := by
  have count : Within 64 (F64.ofNat txCount).value := (Within.nat few.le).round digits
  have rate : Within 6 (Number.of 53 0.03).value :=
    (Within.between (by norm_num) (by norm_num) : Within 6 (0.03 : ℚ)).round digits
  have part : (0 : ℚ) ≤ (F64.ofNat txCount * .of 53 0.03).value := Number.nonneg _
  have small : (F64.ofNat txCount * .of 53 0.03).value ≤ 2^69 := by
    have most : (F64.ofNat txCount).value ≤ 2^64 := round_le digits (fits_power digits 64) (by exact_mod_cast few.le)
    have third : (Number.of 53 0.03).value ≤ 1 := by decide +kernel
    apply product_le (fits_power digits 69)
    calc (F64.ofNat txCount).value * (Number.of 53 0.03).value ≤ 2^64 * 1 :=
          mul_le_mul most third (Number.nonneg _) (by norm_num)
      _ ≤ 2^69 := by norm_num
  refine ⟨(count.mul rate).round digits,Within.round digits (Within.between ?_ ?_)⟩
  · rw [Number.one_value]
    exact one_le_mul_of_one_le_of_one_le (by linarith) (by norm_num)
  · rw [Number.one_value]
    norm_num at small ⊢
    linarith

-- No f64 of the rule leaves the normal numbers, whose exponents reach 1022 both ways.
theorem retarget_normal (few : txCount < 2^64) (actual expected : UInt64) (base : U128) :
    let quotient := F64.ofNat actual.toNat / F64.ofNat expected.toNat
    let load := F64.ofNat txCount * .of 53 0.03
    let scaled := F64.ofNat base.toNat * quotient.clamp (.of 53 0.5) (.of 53 2)
    Within 1022 quotient.value ∧ Within 1022 load.value ∧ Within 1022 (1 + load).value ∧
      Within 1022 ((1 : F64) / (1 + load)).value ∧ Within 1022 (F64.ofNat base.toNat).value ∧
      Within 1022 scaled.value ∧ Within 1022 (scaled * txRatio txCount).value := by
  have spans : ∀ t : UInt64, Within 64 (F64.ofNat t.toNat).value := fun t => (Within.nat t.toNat_lt.le).round digits
  have target : Within 128 (F64.ofNat base.toNat).value := (Within.nat base.isLt.le).round digits
  have one : Within 1 (1 : F64).value := half_within (by norm_num) (by norm_num)
  have order : (Number.of 53 0.5).value ≤ (Number.of 53 2).value := by
    rw [half_value,two_value]
    norm_num
  have ratio : Within 1 ((F64.ofNat actual.toNat / F64.ofNat expected.toNat).clamp (.of 53 0.5) (.of 53 2)).value := by
    rw [Number.clamp_value order,half_value,two_value]
    exact Within.between (by linarith [le_max_left (1 / 2 : ℚ) (min (F64.ofNat actual.toNat / F64.ofNat expected.toNat).value 2)])
      (by norm_num)
  have share : Within 1 (txRatio txCount).value := by
    have bound : 1 / 2 ≤ (Number.of 53 0.55).value := by decide +kernel
    exact half_within (bound.trans (txRatio_least txCount)) ((txRatio_most txCount).trans (by norm_num))
  obtain ⟨load,sum⟩ := load_within few
  have scaled := (target.mul ratio).round digits
  exact ⟨(((spans actual).div (spans expected)).round digits).widen (by omega),load.widen (by omega),sum.widen (by omega),
    ((one.div sum).round digits).widen (by omega),target.widen (by omega),scaled.widen (by omega),
    ((scaled.mul share).round digits).widen (by omega)⟩

theorem eased_twice (most : ratio.value ≤ 2) (bits : UInt32) (txCount : Nat) :
    encoded (adjustedTarget (targetFromBits bits) ratio txCount) ≤ max 1 (2 * (targetFromBits bits).toNat) := by
  rcases target_fits bits with fits | largest
  · have double : Fits 53 ((targetFromBits bits).toNat * 2) := by simpa using fits_scale fits 1
    have exact : (F64.ofNat (targetFromBits bits).toNat).value = (targetFromBits bits).toNat := round_exact fits
    have base : (0 : ℚ) ≤ (targetFromBits bits).toNat := Nat.cast_nonneg _
    have scaled : (F64.ofNat (targetFromBits bits).toNat * ratio).value ≤ (targetFromBits bits).toNat * 2 := by
      apply product_le double
      rw [exact]
      exact mul_le_mul_of_nonneg_left most base
    have loaded : (F64.ofNat (targetFromBits bits).toNat * ratio * txRatio txCount).value ≤
        (targetFromBits bits).toNat * 2 := by
      apply product_le double
      exact (mul_le_of_le_one_right (Number.nonneg _) (txRatio_most txCount)).trans scaled
    have value := adjusted_value (targetFromBits bits) ratio txCount
    have cut := encoded_le (adjustedTarget (targetFromBits bits) ratio txCount)
    have bound : (encoded (adjustedTarget (targetFromBits bits) ratio txCount) : ℚ) ≤
        ((max 1 (2 * (targetFromBits bits).toNat) : ℕ) : ℚ) := by
      push_cast
      calc (encoded (adjustedTarget (targetFromBits bits) ratio txCount) : ℚ)
          ≤ max 1 (min (F64.ofNat (targetFromBits bits).toNat * ratio * txRatio txCount).value (2^128)) := value ▸ cut
        _ ≤ max 1 (2 * ((targetFromBits bits).toNat : ℚ)) := by
            apply max_le_max_left
            exact (min_le_left _ _).trans (by linarith)
    exact_mod_cast bound
  · have word : encoded (adjustedTarget (targetFromBits bits) ratio txCount) < 2^128 := BitVec.isLt _
    omega

theorem stepped_of (most : ratio.value ≤ 2) (close : Close 53 3 ratio.value ideal) (half : 0.5 ≤ ideal) (bits : UInt32)
    (txCount : Nat) :
    Stepped (targetFromBits bits).toNat (encoded (adjustedTarget (targetFromBits bits) ratio txCount)) := by
  have positive : 0 ≤ ideal := le_trans (by norm_num) half
  have near := encoded_near (adjusted_close (targetFromBits bits) txCount close positive)
    (adjusted_one _ _ _) (adjusted_most _ _ _) (le_max_of_le_left zero_le_one)
  refine ⟨encoded_positive (adjusted_one _ _ _),eased_twice most bits txCount,?_⟩
  -- Half of the target, and a little more than half of that, are left at least.
  have base : (0 : ℚ) ≤ (targetFromBits bits).toNat := Nat.cast_nonneg _
  have word : ((targetFromBits bits).toNat : ℚ) ≤ 2^128 := by exact_mod_cast (targetFromBits bits).isLt.le
  have share : 0.275 ≤ ideal * idealTx txCount := by
    have least : 0.55 ≤ idealTx txCount := le_max_left _ _
    calc (0.275 : ℚ) = 0.5 * 0.55 := by norm_num
      _ ≤ ideal * idealTx txCount := mul_le_mul half least (by norm_num) positive
  have left : (targetFromBits bits).toNat * 0.275 ≤
      max 1 (min ((targetFromBits bits).toNat * ideal * idealTx txCount) (2^128)) := by
    apply le_max_of_le_right
    refine le_min ?_ (by linarith)
    rw [mul_assoc]
    exact mul_le_mul_of_nonneg_left share base
  have some : (0 : ℚ) ≤ encoded (adjustedTarget (targetFromBits bits) ratio txCount) := Nat.cast_nonneg _
  have bound : ((targetFromBits bits).toNat : ℚ) <
      ((4 * (encoded (adjustedTarget (targetFromBits bits) ratio txCount) + 1) : ℕ) : ℚ) := by
    have order := left.trans near.2
    push_cast
    norm_num at order ⊢
    linarith
  exact_mod_cast bound

theorem base_most (base : U128) : (F64.ofNat base.toNat).value ≤ 2^128 := by
  have word : (base.toNat : ℚ) ≤ 2^128 := by exact_mod_cast base.isLt.le
  exact round_le digits (fits_power digits 128) word

-- The rule for a chain of one block is the general one at the ratio 1.
theorem pressure_adjusted (bits : UInt32) (txCount : Nat) : applyTxPressure bits txCount =
    bitsFromTarget (F64.toU128 (adjustedTarget (targetFromBits bits) 1 txCount)) := by
  have kept : F64.ofNat (targetFromBits bits).toNat * 1 = F64.ofNat (targetFromBits bits).toNat := by
    apply Number.ext
    rw [Number.mul_value,Number.one_value,mul_one]
    exact round_exact (Number.fits _)
  have inside : (F64.ofNat (targetFromBits bits).toNat * txRatio txCount).value ≤ 2^128 :=
    product_le (fits_power digits 128) ((mul_le_of_le_one_right (Number.nonneg _) (txRatio_most txCount)).trans (base_most _))
  have same : F64.max (F64.ofNat (targetFromBits bits).toNat * txRatio txCount) 1 =
      adjustedTarget (targetFromBits bits) 1 txCount := by
    apply Number.ext
    rw [adjusted_value,kept,min_eq_left inside,F64.max]
    split_ifs with below
    · rw [Number.one_value] at below ⊢
      exact (max_eq_left below.le).symm
    · rw [Number.one_value] at below
      exact (max_eq_right (not_lt.mp below)).symm
  rw [← same]
  rfl

structure Tip (s : Blockchain) (tip : Block) : Prop where
  last : ∃ k, s.bestChain.getLast? = some k ∧ s.getBlock k = some tip

-- The blocks whose times the rule compares.
structure Window (s : Blockchain) (first last : Block) (size : Nat) : Prop extends Tip s last where
  length : size = min s.bestChain.length Protocol.difficultyRetargetWindow
  first : ∃ k, s.bestChain[s.bestChain.length - size]? = some k ∧ s.getBlock k = some first

def span (first last : Block) : Nat := max (last.header.timestamp.toNat - first.header.timestamp.toNat) 1

theorem max_toNat (x y : UInt64) : (max x y).toNat = max x.toNat y.toNat := by
  change (if x ≤ y then y else x).toNat = _
  split_ifs with order
  · exact (max_eq_right (UInt64.le_iff_toNat_le.mp order)).symm
  · exact (max_eq_left (UInt64.lt_iff_toNat_lt.mp (UInt64.not_le.mp order)).le).symm

theorem retargetRatio_exact (first last : Block) (size : Nat) (small : size ≤ 30) :
    retargetRatio first.header.timestamp last.header.timestamp size =
      (F64.ofNat (span first last) / F64.ofNat (max (size - 1) 1)).clamp (.of 53 0.5) (.of 53 2) := by
  have expected : (max (Protocol.defaultBlockTimeSeconds * UInt64.ofNat (size - 1)) 1).toNat = max (size - 1) 1 := by
    rw [max_toNat,Protocol.defaultBlockTimeSeconds,UInt64.one_mul,UInt64.toNat_ofNat_of_lt' (by rw [UInt64.size]; omega)]
    rfl
  have actual : (max (if last.header.timestamp < first.header.timestamp then 0
      else last.header.timestamp - first.header.timestamp) 1).toNat = span first last := by
    rw [max_toNat,span]
    split_ifs with before
    · have order := UInt64.lt_iff_toNat_lt.mp before
      simp only [UInt64.toNat_zero,UInt64.toNat_one]
      omega
    · rw [UInt64.toNat_sub_of_le _ _ (UInt64.not_lt.mp before),UInt64.toNat_one]
  simp only [retargetRatio,expected,actual]

theorem retargetRatio_most (first last : UInt64) (size : Nat) : (retargetRatio first last size).value ≤ 2 := by
  have order : (Number.of 53 0.5).value ≤ (Number.of 53 2).value := by rw [half_value,two_value]; norm_num
  unfold retargetRatio
  rw [Number.clamp_value order,half_value,two_value]
  exact max_le (by norm_num) (min_le_right _ _)

-- What the node computes in a state: the base, the ratio and what it approximates.
structure Steered (s : Blockchain) (tip : Block) (ratio : F64) (ideal : ℚ) : Prop extends Tip s tip where
  computed : ∀ txCount, (targetFromBits (s.nextWorkBits txCount)).toNat =
    encoded (adjustedTarget (targetFromBits tip.header.bits) ratio txCount)
  most : ratio.value ≤ 2
  close : Close 53 3 ratio.value ideal
  half : 0.5 ≤ ideal

theorem window_exists (valid : ChainState.Valid c s) (any : 0 < s.bestChain.length) :
    ∃ first last size, Window s first last size := by
  obtain ⟨tip,last,branch,stored,_⟩ := valid.tip
  have one : 1 ≤ min s.bestChain.length Protocol.difficultyRetargetWindow := le_min any (by decide)
  have most : min s.bestChain.length Protocol.difficultyRetargetWindow ≤ s.bestChain.length := min_le_left _ _
  obtain ⟨k,opening⟩ : ∃ k, s.bestChain[s.bestChain.length -
      min s.bestChain.length Protocol.difficultyRetargetWindow]? = some k := ⟨_,List.getElem?_eq_getElem (by omega)⟩
  obtain ⟨first,begun⟩ := ChainState.branch_stored branch k (List.mem_of_getElem? opening)
  exact ⟨first,last,_,⟨tip,branch.last,stored⟩,rfl,k,opening,begun⟩

theorem window_steered (valid : ChainState.Valid c s) (window : Window s first last size) (two : 2 ≤ size) :
    Steered s last (retargetRatio first.header.timestamp last.header.timestamp size)
      (idealRatio (span first last) (size - 1)) := by
  have small : size ≤ 30 := window.length ▸ min_le_right _ _
  have most : size ≤ s.bestChain.length := window.length ▸ min_le_left _ _
  obtain ⟨k,opening,begun⟩ := window.first
  obtain ⟨tip,ends,stored⟩ := window.last
  refine ⟨window.toTip,?_,retargetRatio_most _ _ _,?_,le_max_left _ _⟩
  · intro txCount
    have heads : (s.bestChain.drop (s.bestChain.length - size)).head? = some k := by rw [List.head?_drop,opening]
    have tails : (s.bestChain.drop (s.bestChain.length - size)).getLast? = some tip := by
      rw [List.getLast?_drop,if_neg (by omega),ends]
    unfold nextWorkBits
    rw [if_neg (by omega)]
    simp only [← window.length,heads,tails,Option.bind_some,valid.headers,begun,stored,Option.map_some]
    rfl
  · rw [retargetRatio_exact first last size small,max_eq_left (by omega)]
    exact retargetRatio_close (by omega)

theorem genesis_steered (valid : ChainState.Valid c s) (single : s.bestChain.length < 2) : ∃ tip, Steered s tip 1 1 := by
  obtain ⟨tip,block,branch,stored,_⟩ := valid.tip
  obtain ⟨only,alone⟩ : ∃ k, s.bestChain = [k] := by
    have some := List.length_pos_iff.mpr branch.ne_nil
    exact List.length_eq_one_iff.mp (by omega)
  have head := branch.head
  have last := branch.last
  rw [alone] at head last
  obtain rfl : only = s.genesisHash := Option.some.inj head
  obtain rfl : s.genesisHash = tip := Option.some.inj last
  obtain rfl : Blockchain.createGenesisBlock c = block := Option.some.inj (valid.genesis.symm.trans stored)
  refine ⟨_,⟨_,branch.last,stored⟩,?_,?_,exact_close Number.one_value 3 zero_le_one,by norm_num⟩
  · intro txCount
    rw [nextWorkBits,if_pos single,pressure_adjusted]
    rfl
  · rw [Number.one_value]
    norm_num

theorem steered (valid : ChainState.Valid c s) : ∃ tip ratio ideal, Steered s tip ratio ideal := by
  by_cases single : s.bestChain.length < 2
  · obtain ⟨tip,steers⟩ := genesis_steered valid single
    exact ⟨tip,_,_,steers⟩
  · obtain ⟨first,last,size,window⟩ := window_exists valid (by omega)
    have two : 2 ≤ size := window.length ▸ le_min (Nat.not_lt.mp single) (by decide)
    exact ⟨last,_,_,window_steered valid window two⟩

theorem Steered.stepped (steers : Steered s tip ratio ideal) (txCount : Nat) :
    Stepped (targetFromBits tip.header.bits).toNat (targetFromBits (s.nextWorkBits txCount)).toNat := by
  rw [steers.computed]
  exact stepped_of steers.most steers.close steers.half _ _

theorem Tip.unique (one : Tip s first) (two : Tip s second) : first = second := by
  obtain ⟨j,ends,found⟩ := one.last
  obtain ⟨k,closes,stored⟩ := two.last
  obtain rfl := Option.some.inj (ends.symm.trans closes)
  exact Option.some.inj (found.symm.trans stored)

-- A second block, one second after genesis, with the target 0xffff * 2^112.
def timelyBlock : Block :=
  let block := minedBlock genesisState.genesisHash 1 [createCoinbaseTransaction 1 100 [3]] 0x1100ffff 0
  { block with header := { block.header with timestamp := Protocol.genesisTimestamp + 1 } }

theorem timelyBlock_window : ∃ s, ChainState.Reachable reference s ∧
    Window s (Blockchain.createGenesisBlock reference) timelyBlock 2 := by
  have ran : (genesisState.addBlock reference timelyBlock).map (fun pair =>
      decide (pair.1.bestChain = [genesisState.genesisHash,timelyBlock.hash reference] ∧
        pair.1.getBlock genesisState.genesisHash = some (Blockchain.createGenesisBlock reference) ∧
        pair.1.getBlock (timelyBlock.hash reference) = some timelyBlock)) = some true := by decide +kernel
  obtain ⟨⟨s,answer⟩,step,equal⟩ := Option.map_eq_some_iff.mp ran
  obtain ⟨chain,first,last⟩ := of_decide_eq_true equal
  refine ⟨s,⟨_,.step .nil trivial step⟩,⟨_,?_,last⟩,?_,_,?_,first⟩
  · rw [chain]
    rfl
  · rw [chain]
    rfl
  · rw [chain]
    rfl

-- Next to the block it is built on, a template never more than doubles the target,
-- never cuts it below a quarter and never asks for what no hash can meet.
theorem difficulty_bounded (reached : ChainState.Reachable c s) : ∃ tip, Tip s tip ∧ ∀ txCount,
    Stepped (targetFromBits tip.header.bits).toNat (targetFromBits (s.nextWorkBits txCount)).toNat := by
  obtain ⟨tip,_,_,steers⟩ := steered (ChainState.reached_valid reached)
  exact ⟨tip,steers.toTip,steers.stepped⟩

theorem difficulty_bounded_timelyBlock : ∃ s, ChainState.Reachable reference s ∧ ∃ tip, Tip s tip ∧
    Stepped (targetFromBits tip.header.bits).toNat (targetFromBits (s.nextWorkBits 5)).toNat := by
  obtain ⟨s,reached,_⟩ := timelyBlock_window
  obtain ⟨tip,last,stepped⟩ := difficulty_bounded reached
  exact ⟨s,reached,tip,last,stepped 5⟩

-- Behind the first block the target is that of exact arithmetic, to a part in 2^14.
theorem difficulty_accurate (reached : ChainState.Reachable c s) (window : Window s first last size) (two : 2 ≤ size)
    (txCount : Nat) :
    (targetFromBits (s.nextWorkBits txCount)).toNat ≤ idealTarget (targetFromBits last.header.bits).toNat
      (span first last) (size - 1) txCount * (1 + 1 / 2^48) ∧
    idealTarget (targetFromBits last.header.bits).toNat (span first last) (size - 1) txCount ≤
      ((targetFromBits (s.nextWorkBits txCount)).toNat + 1) * (1 + 1 / 2^14) := by
  have steers := window_steered (ChainState.reached_valid reached) window two
  have close := adjusted_close (targetFromBits last.header.bits) txCount steers.close
    (idealRatio_nonneg _ _)
  rw [steers.computed]
  exact encoded_near close (adjusted_one _ _ _) (adjusted_most _ _ _) (le_max_of_le_left zero_le_one)

theorem difficulty_accurate_timelyBlock : ∃ s, ChainState.Reachable reference s ∧
    (targetFromBits (s.nextWorkBits 5)).toNat ≤ idealTarget (targetFromBits 0x1100ffff).toNat 1 1 5 * (1 + 1 / 2^48) := by
  obtain ⟨s,reached,window⟩ := timelyBlock_window
  exact ⟨s,reached,(difficulty_accurate reached window (by decide) 5).1⟩

theorem txRatio_order_load (order : n ≤ m) : (txRatio m).value ≤ (txRatio n).value := by
  have mono : ∀ {q r : ℚ}, q ≤ r → round 53 q ≤ round 53 r := round_monotone digits
  unfold txRatio
  rw [Number.clamp_value txRatio_order,Number.clamp_value txRatio_order]
  apply max_le_max_left
  apply min_le_min_right
  have grows : ((1 : F64) + F64.ofNat n * .of 53 0.03).value ≤ ((1 : F64) + F64.ofNat m * .of 53 0.03).value := by
    apply mono
    apply add_le_add_right
    apply mono
    exact mul_le_mul_of_nonneg_right (mono (by exact_mod_cast order)) (Number.nonneg _)
  have positive : 0 < ((1 : F64) + F64.ofNat n * .of 53 0.03).value := by
    have larger : (0 : ℚ) ≤ (F64.ofNat n * .of 53 0.03).value := Number.nonneg _
    rw [Number.add_value,Number.one_value]
    exact round_pos digits (by linarith)
  apply mono
  exact div_le_div_of_nonneg_left (Number.nonneg _) positive grows

theorem adjusted_order (less : (txRatio m).value ≤ (txRatio n).value) (base : U128) (ratio : F64) :
    (adjustedTarget base ratio m).value ≤ (adjustedTarget base ratio n).value := by
  rw [adjusted_value,adjusted_value]
  apply max_le_max_left
  apply min_le_min_right
  exact round_monotone digits (mul_le_mul_of_nonneg_left less (Number.nonneg _))

-- In any state at all, whatever its chain is.
theorem nextWorkBits_adjusted (s : Blockchain) : ∃ base ratio, ∀ txCount,
    s.nextWorkBits txCount = bitsFromTarget (F64.toU128 (adjustedTarget base ratio txCount)) := by
  unfold nextWorkBits
  dsimp only
  split_ifs
  · exact ⟨_,1,pressure_adjusted _⟩
  · split
    · exact ⟨_,_,fun _ => rfl⟩
    · exact ⟨_,1,pressure_adjusted _⟩

theorem txRatio_floor (busy : 28 ≤ n) : txRatio n = txRatio 28 := by
  have bottom : (txRatio 28).value = (Number.of 53 0.55).value := by decide +kernel
  apply Number.ext
  apply le_antisymm (txRatio_order_load busy)
  rw [bottom]
  exact txRatio_least n

theorem load_never_eases (s : Blockchain) :
    (∀ n m, n ≤ m → (targetFromBits (s.nextWorkBits m)).toNat ≤ (targetFromBits (s.nextWorkBits n)).toNat) ∧
    ∀ n, 28 ≤ n → s.nextWorkBits n = s.nextWorkBits 28 := by
  obtain ⟨base,ratio,computed⟩ := nextWorkBits_adjusted s
  constructor
  · intro n m order
    rw [computed,computed]
    exact encoded_order (adjusted_order (txRatio_order_load order) base ratio)
  · intro n busy
    rw [computed,computed,adjustedTarget,adjustedTarget,txRatio_floor busy]

-- A target that came out of a header goes back into one without loss.
theorem target_kept (inside : (targetFromBits bits).toNat < 2^128 - 1) :
    (rounded (targetFromBits bits)).toNat = (targetFromBits bits).toNat := by
  obtain ⟨j,rounds⟩ := target_rounds (targetFromBits bits)
  obtain ⟨n,k,small,value⟩ := (target_digits bits).resolve_right (by omega)
  have few : j ≤ k := by
    rcases rounds.drops.needed with rfl | needed
    · exact Nat.zero_le k
    · by_contra more
      have order : 256^(k + 1) ≤ 256^j := Nat.pow_le_pow_right (by omega) (by omega)
      have above : n * 256^k < 2^23 * 256^k := Nat.mul_lt_mul_of_pos_right small (Nat.pow_pos (by omega))
      rw [value] at needed
      rw [Nat.pow_succ] at order
      omega
  rw [rounded_keep rounds,value]
  exact Nat.div_mul_cancel ((pow_dvd_pow 256 few).trans (Nat.dvd_mul_left _ _))

theorem quotient_one (some : 0 < n) : (F64.ofNat n / F64.ofNat n).value = 1 := by
  have one : Fits 53 1 := by simpa using fits_power digits 0
  rw [Number.div_value,div_self (ofNat_pos some).ne']
  exact round_exact one

-- On schedule and without load the target stays as it is.
theorem difficulty_steady (reached : ChainState.Reachable c s) (window : Window s first last size) (two : 2 ≤ size)
    (onTime : span first last = size - 1) (positive : 0 < (targetFromBits last.header.bits).toNat)
    (inside : (targetFromBits last.header.bits).toNat < 2^128 - 1) :
    targetFromBits (s.nextWorkBits 0) = targetFromBits last.header.bits := by
  have steers := window_steered (ChainState.reached_valid reached) window two
  have most : size ≤ 30 := window.length ▸ min_le_right _ _
  have ratio : (retargetRatio first.header.timestamp last.header.timestamp size).value = 1 := by
    rw [retargetRatio_exact first last size most,onTime,max_eq_left (by omega),Number.clamp_value
      (by rw [half_value,two_value]; norm_num),half_value,two_value,quotient_one (by omega)]
    norm_num
  have idle : (txRatio 0).value = 1 := by decide +kernel
  have fits := (target_fits last.header.bits).resolve_right (by omega)
  have word : ((targetFromBits last.header.bits).toNat : ℚ) ≤ 2^128 := by
    exact_mod_cast (targetFromBits last.header.bits).isLt.le
  have value : (adjustedTarget (targetFromBits last.header.bits)
      (retargetRatio first.header.timestamp last.header.timestamp size) 0).value = (targetFromBits last.header.bits).toNat := by
    have some : (1 : ℚ) ≤ (targetFromBits last.header.bits).toNat := by exact_mod_cast positive
    rw [adjusted_value,Number.mul_value,Number.mul_value,ratio,idle,mul_one,mul_one,ofNat_value,round_exact fits,
      round_exact fits,round_exact fits,min_eq_left word,max_eq_right some]
  have whole : F64.toU128 (adjustedTarget (targetFromBits last.header.bits)
      (retargetRatio first.header.timestamp last.header.timestamp size) 0) = targetFromBits last.header.bits := by
    apply BitVec.eq_of_toNat_eq
    rw [toU128_toNat,value,Nat.floor_natCast]
    omega
  apply BitVec.eq_of_toNat_eq
  rw [steers.computed,encoded,whole]
  exact target_kept inside

theorem difficulty_steady_timelyBlock : ∃ s, ChainState.Reachable reference s ∧
    targetFromBits (s.nextWorkBits 0) = targetFromBits timelyBlock.header.bits := by
  obtain ⟨s,reached,window⟩ := timelyBlock_window
  exact ⟨s,reached,difficulty_steady reached window (by decide) (by decide +kernel) (by decide +kernel)
    (by decide +kernel)⟩

end BlindEye.DifficultyLaw
