import Mathlib.Data.Int.Log
import Mathlib.Data.Rat.Floor
import Mathlib.Tactic.Linarith
import Mathlib.Tactic.Positivity
import Mathlib.Tactic.FieldSimp
import Mathlib.Tactic.Ring

-- Numbers of a fixed count of binary digits under a power of two of any sign, and
-- rounding to the nearest of them. The range of the exponent has no end here.
namespace RoundNearest

variable {q r : ℚ} {precision n : Nat} {j k : ℤ}

-- The nearest integer, of two equally near the even one.
def nearest (q : ℚ) : ℤ :=
  let low := ⌊q⌋
  if 2 * (q - low) < 1 then low
  else if 1 < 2 * (q - low) then low + 1
  else if low % 2 = 0 then low else low + 1

theorem nearest_between (q : ℚ) : ⌊q⌋ ≤ nearest q ∧ nearest q ≤ ⌊q⌋ + 1 := by
  unfold nearest
  dsimp only
  split_ifs <;> omega

@[simp] theorem nearest_int (m : ℤ) : nearest (m : ℚ) = m := by simp [nearest]

theorem nearest_close (q : ℚ) : 2 * |nearest q - q| ≤ 1 := by
  have low := Int.floor_le q
  have high := Int.lt_floor_add_one q
  rw [abs_sub_comm]
  unfold nearest
  dsimp only
  split_ifs with below above even
  · rw [abs_of_nonneg (by linarith)]
    linarith
  · push_cast
    rw [abs_of_nonpos (by linarith)]
    linarith
  · rw [abs_of_nonneg (by linarith)]
    linarith
  · push_cast
    rw [abs_of_nonpos (by linarith)]
    linarith

theorem nearest_monotone (order : q ≤ r) : nearest q ≤ nearest r := by
  rcases Int.lt_or_eq_of_le (Int.floor_mono order) with apart | same
  · have left := (nearest_between q).2
    have right := (nearest_between r).1
    omega
  · unfold nearest
    rw [← same]
    dsimp only
    split_ifs <;> first | omega | (exfalso; linarith)

theorem le_nearest {m : ℤ} (below : (m : ℚ) ≤ q) : m ≤ nearest q := by
  have order := nearest_monotone below
  rwa [nearest_int] at order

theorem nearest_le {m : ℤ} (above : q ≤ (m : ℚ)) : nearest q ≤ m := by
  have order := nearest_monotone above
  rwa [nearest_int] at order

-- What the last of the digits counts for.
def unit (precision : Nat) (q : ℚ) : ℚ := 2^(Int.log 2 q + 1 - precision)

def round (precision : Nat) (q : ℚ) : ℚ := if q ≤ 0 then 0 else nearest (q / unit precision q) * unit precision q

-- The numbers of `precision` digits. A number that has them has as many under every
-- power of two.
def Fits (precision : Nat) (q : ℚ) : Prop := ∃ (n : ℕ) (k : ℤ), n < 2^precision ∧ q = n * 2^k

theorem power_pos (k : ℤ) : (0 : ℚ) < 2^k := zpow_pos (by norm_num) k

theorem unit_pos (precision : Nat) (q : ℚ) : 0 < unit precision q := power_pos _

theorem power_le (order : j ≤ k) : (2 : ℚ)^j ≤ 2^k := zpow_le_zpow_right₀ (by norm_num) order

theorem log_le (positive : 0 < q) : (2 : ℚ)^Int.log 2 q ≤ q := by
  exact_mod_cast Int.zpow_log_le_self (b := 2) (by norm_num) positive

theorem lt_log (q : ℚ) : q < (2 : ℚ)^(Int.log 2 q + 1) := by
  exact_mod_cast Int.lt_zpow_succ_log_self (b := 2) (by norm_num) q

theorem digits_unit (precision : Nat) (q : ℚ) : (2 : ℚ)^precision * unit precision q = 2^(Int.log 2 q + 1) := by
  rw [unit,← zpow_natCast,← zpow_add₀ (by norm_num)]
  congr 1
  omega

theorem round_of_pos (positive : 0 < q) : round precision q = nearest (q / unit precision q) * unit precision q :=
  if_neg (not_le.mpr positive)

@[simp] theorem round_zero (precision : Nat) : round precision 0 = 0 := if_pos le_rfl

-- The digits stay below the next power of two or become that power.
theorem nearest_digits (precision : Nat) (q : ℚ) : nearest (q / unit precision q) ≤ 2^precision := by
  apply nearest_le
  rw [div_le_iff₀ (unit_pos _ _)]
  push_cast
  rw [digits_unit]
  exact (lt_log q).le

theorem round_upper (positive : 0 < q) : round precision q ≤ 2^(Int.log 2 q + 1) := by
  rw [round_of_pos positive,← digits_unit precision]
  apply mul_le_mul_of_nonneg_right _ (unit_pos _ _).le
  exact_mod_cast nearest_digits precision q

theorem round_lower (some : 0 < precision) (positive : 0 < q) : 2^Int.log 2 q ≤ round precision q := by
  have half : (2 : ℚ)^(precision - 1) * unit precision q = 2^Int.log 2 q := by
    rw [unit,← zpow_natCast,← zpow_add₀ (by norm_num)]
    congr 1
    omega
  have digits : ((2^(precision - 1) : ℕ) : ℤ) ≤ nearest (q / unit precision q) := by
    apply le_nearest
    rw [le_div_iff₀ (unit_pos _ _)]
    push_cast
    rw [half]
    exact log_le positive
  rw [round_of_pos positive,← half]
  apply mul_le_mul_of_nonneg_right _ (unit_pos _ _).le
  exact_mod_cast digits

theorem round_pos (some : 0 < precision) (positive : 0 < q) : 0 < round precision q :=
  lt_of_lt_of_le (power_pos _) (round_lower some positive)

theorem round_nonneg (precision : Nat) (q : ℚ) : 0 ≤ round precision q := by
  unfold round
  split_ifs with zero
  · exact le_rfl
  · have digits : (0 : ℤ) ≤ nearest (q / unit precision q) := by
      apply le_nearest
      exact_mod_cast div_nonneg (not_le.mp zero).le (unit_pos precision q).le
    exact mul_nonneg (by exact_mod_cast digits) (unit_pos precision q).le

theorem round_fits (some : 0 < precision) (q : ℚ) : Fits precision (round precision q) := by
  rcases le_or_gt q 0 with zero | positive
  · exact ⟨0,0,Nat.pow_pos (by norm_num),by simp [round,zero]⟩
  · have digits : (0 : ℤ) ≤ nearest (q / unit precision q) := by
      apply le_nearest
      exact_mod_cast div_nonneg positive.le (unit_pos precision q).le
    obtain ⟨n,counted⟩ := Int.eq_ofNat_of_zero_le digits
    have small := nearest_digits precision q
    rw [round_of_pos positive]
    rw [counted] at small ⊢
    rcases Nat.lt_or_eq_of_le (by exact_mod_cast small : n ≤ 2^precision) with below | rfl
    · exact ⟨n,_,below,rfl⟩
    · refine ⟨1,Int.log 2 q + 1,Nat.one_lt_two_pow (by omega),?_⟩
      push_cast
      rw [one_mul,digits_unit]

-- What has the digits is its own nearest.
theorem round_exact (fits : Fits precision q) : round precision q = q := by
  obtain ⟨n,k,below,rfl⟩ := fits
  rcases Nat.eq_zero_or_pos n with rfl | positive
  · simp
  · have above : (0 : ℚ) < n * 2^k := mul_pos (by exact_mod_cast positive) (power_pos k)
    -- The logarithm is at most the last power, so the unit divides the number.
    have order : Int.log 2 ((n : ℚ) * 2^k) + 1 - precision ≤ k := by
      have less : (n : ℚ) * 2^k < ((2 : ℕ) : ℚ)^((precision : ℤ) + k) := by
        rw [Nat.cast_ofNat,zpow_add₀ (by norm_num),zpow_natCast]
        exact mul_lt_mul_of_pos_right (by exact_mod_cast below) (power_pos k)
      have log := (Int.lt_zpow_iff_log_lt (by norm_num) above).mp less
      omega
    obtain ⟨d,gap⟩ := Int.eq_ofNat_of_zero_le (Int.sub_nonneg.mpr order)
    have whole : (n : ℚ) * 2^k = ((n * 2^d : ℕ) : ℤ) * unit precision ((n : ℚ) * 2^k) := by
      rw [unit]
      push_cast
      rw [mul_assoc,← zpow_natCast (2 : ℚ) d,← zpow_add₀ (by norm_num)]
      congr 2
      omega
    rw [round_of_pos above]
    have divided : (n : ℚ) * 2^k / unit precision ((n : ℚ) * 2^k) = ((n * 2^d : ℕ) : ℤ) :=
      (div_eq_iff (unit_pos _ _).ne').mpr whole
    rw [divided,nearest_int]
    exact whole.symm

theorem fits_scale (fits : Fits precision q) (j : ℤ) : Fits precision (q * 2^j) := by
  obtain ⟨n,k,below,rfl⟩ := fits
  exact ⟨n,k + j,below,by rw [mul_assoc,← zpow_add₀ (by norm_num)]⟩

theorem fits_power (some : 0 < precision) (j : ℤ) : Fits precision (2^j) :=
  ⟨1,j,Nat.one_lt_two_pow (by omega),by simp⟩

theorem round_monotone (some : 0 < precision) (order : q ≤ r) : round precision q ≤ round precision r := by
  rcases le_or_gt q 0 with zero | positive
  · rw [round,if_pos zero]
    exact round_nonneg precision r
  · have above := lt_of_lt_of_le positive order
    rcases Int.lt_or_eq_of_le (Int.log_mono_right (b := 2) positive order) with apart | same
    · calc round precision q ≤ 2^(Int.log 2 q + 1) := round_upper positive
        _ ≤ 2^Int.log 2 r := power_le apart
        _ ≤ round precision r := round_lower some above
    · have units : unit precision q = unit precision r := by rw [unit,unit,same]
      rw [round_of_pos positive,round_of_pos above,units]
      apply mul_le_mul_of_nonneg_right _ (unit_pos _ _).le
      exact_mod_cast nearest_monotone (div_le_div_of_nonneg_right order (unit_pos _ _).le)

theorem le_round (some : 0 < precision) (fits : Fits precision q) (order : q ≤ r) : q ≤ round precision r := by
  have rounded := round_monotone some order
  rwa [round_exact fits] at rounded

theorem round_le (some : 0 < precision) (fits : Fits precision r) (order : q ≤ r) : round precision q ≤ r := by
  have rounded := round_monotone some order
  rwa [round_exact fits] at rounded

-- The error is at most half of the last digit.
theorem round_close (precision : Nat) (order : 0 ≤ q) : |round precision q - q| * 2^precision ≤ q := by
  rcases order.eq_or_lt with rfl | positive
  · simp
  · have close := nearest_close (q / unit precision q)
    have above := unit_pos precision q
    have error : |round precision q - q| = |nearest (q / unit precision q) - q / unit precision q| * unit precision q := by
      rw [round_of_pos positive,← abs_of_pos above,← abs_mul,abs_of_pos above,sub_mul,div_mul_cancel₀ _ above.ne']
    have split : (2 : ℚ)^(Int.log 2 q + 1) = 2 * 2^Int.log 2 q := by rw [zpow_add₀ (by norm_num)]; ring
    calc |round precision q - q| * 2^precision
        = |nearest (q / unit precision q) - q / unit precision q| * (2^precision * unit precision q) := by
          rw [error]
          ring
      _ = 2 * |nearest (q / unit precision q) - q / unit precision q| * 2^Int.log 2 q := by
          rw [digits_unit,split]
          ring
      _ ≤ 1 * 2^Int.log 2 q := mul_le_mul_of_nonneg_right close (power_pos _).le
      _ ≤ q := by
          rw [one_mul]
          exact log_le positive

-- Zero, or a number whose size and whose inverse stay below a power of two: an
-- exponent of a fixed range holds it.
def Within (k : Nat) (q : ℚ) : Prop := q = 0 ∨ 1 ≤ q * 2^k ∧ q ≤ 2^k

namespace Within

variable {j k : Nat} {q r : ℚ}

theorem widen (inside : Within j q) (order : j ≤ k) : Within k q := by
  have grows : (2 : ℚ)^j ≤ 2^k := pow_le_pow_right₀ (by norm_num) order
  rcases inside with zero | ⟨least,most⟩
  · exact .inl zero
  · have positive : 0 < q := pos_of_mul_pos_left (lt_of_lt_of_le one_pos least) (by positivity)
    exact .inr ⟨least.trans (mul_le_mul_of_nonneg_left grows positive.le),most.trans grows⟩

theorem mul (first : Within j q) (second : Within k r) : Within (j + k) (q * r) := by
  rcases first with zero | ⟨least,most⟩
  · exact .inl (by rw [zero,zero_mul])
  rcases second with zero | ⟨least',most'⟩
  · exact .inl (by rw [zero,mul_zero])
  have positive : 0 < r := pos_of_mul_pos_left (lt_of_lt_of_le one_pos least') (by positivity)
  refine .inr ⟨?_,?_⟩
  · calc (1 : ℚ) = 1 * 1 := (one_mul 1).symm
      _ ≤ q * 2^j * (r * 2^k) := mul_le_mul least least' zero_le_one (zero_le_one.trans least)
      _ = q * r * 2^(j + k) := by ring
  · rw [pow_add]
    exact mul_le_mul most most' positive.le (by positivity)

theorem inv (inside : Within k q) : Within k q⁻¹ := by
  rcases inside with zero | ⟨least,most⟩
  · exact .inl (by rw [zero,inv_zero])
  have positive : 0 < q := pos_of_mul_pos_left (lt_of_lt_of_le one_pos least) (by positivity)
  refine .inr ⟨?_,?_⟩
  · rwa [inv_mul_eq_div,one_le_div positive]
  · rw [inv_le_iff_one_le_mul₀ positive,mul_comm]
    exact least

theorem div (first : Within j q) (second : Within k r) : Within (j + k) (q / r) := by
  rw [div_eq_mul_inv]
  exact first.mul second.inv

theorem between (least : 1 ≤ q * 2^k) (most : q ≤ 2^k) : Within k q := .inr ⟨least,most⟩

theorem nat {n : Nat} (small : n ≤ 2^k) : Within k n := by
  rcases Nat.eq_zero_or_pos n with rfl | positive
  · exact .inl Nat.cast_zero
  · have one : (1 : ℚ) ≤ n := by exact_mod_cast positive
    exact .inr ⟨one_le_mul_of_one_le_of_one_le one (one_le_pow₀ (by norm_num)),by exact_mod_cast small⟩

theorem round (some : 0 < precision) (inside : Within k q) : Within k (round precision q) := by
  rcases inside with rfl | ⟨least,most⟩
  · exact .inl (round_zero precision)
  · have power : Fits precision (2^(-(k : ℤ))) := fits_power some _
    have order : (2 : ℚ)^(-(k : ℤ)) ≤ q := by
      rw [zpow_neg,zpow_natCast,inv_le_iff_one_le_mul₀ (by positivity)]
      exact least
    have kept := le_round some power order
    rw [zpow_neg,zpow_natCast,inv_le_iff_one_le_mul₀ (by positivity)] at kept
    have limit : Fits precision (2^k) := by
      have power := fits_power some (k : ℤ)
      rwa [zpow_natCast] at power
    exact .inr ⟨kept,round_le some limit most⟩

end Within

-- A number that is not negative, with its digits.
@[ext] structure Number (precision : Nat) where
  value : ℚ
  nonneg : 0 ≤ value
  fits : Fits precision value

namespace Number

variable [NeZero precision] {x y z low high : Number precision}

def of (precision : Nat) [NeZero precision] (q : ℚ) : Number precision :=
  ⟨round precision q,round_nonneg precision q,round_fits (Nat.pos_of_neZero precision) q⟩

instance : Add (Number precision) := ⟨fun x y => of precision (x.value + y.value)⟩
instance : Mul (Number precision) := ⟨fun x y => of precision (x.value * y.value)⟩
instance : Div (Number precision) := ⟨fun x y => of precision (x.value / y.value)⟩
instance : OfNat (Number precision) 1 := ⟨of precision 1⟩

def clamp (x low high : Number precision) : Number precision :=
  if x.value < low.value then low else if high.value < x.value then high else x

@[simp] theorem of_value (q : ℚ) : (of precision q).value = round precision q := rfl
@[simp] theorem add_value : (x + y).value = round precision (x.value + y.value) := rfl
@[simp] theorem mul_value : (x * y).value = round precision (x.value * y.value) := rfl
@[simp] theorem div_value : (x / y).value = round precision (x.value / y.value) := rfl

theorem of_fits (fits : Fits precision q) : (of precision q).value = q := round_exact fits

@[simp] theorem one_value : (1 : Number precision).value = 1 := by
  have power := fits_power (Nat.pos_of_neZero precision) 0
  exact of_fits (by simpa using power)

omit [NeZero precision] in
theorem clamp_value (order : low.value ≤ high.value) :
    (x.clamp low high).value = max low.value (min x.value high.value) := by
  unfold clamp
  split_ifs with below above
  · rw [min_eq_left (below.le.trans order),max_eq_left below.le]
  · rw [min_eq_right above.le,max_eq_right order]
  · rw [min_eq_left (not_lt.mp above),max_eq_right (not_lt.mp below)]

end Number

-- A little more than what one rounding can change.
def slack (precision : Nat) : ℚ := 1 + 2 / 2^precision

theorem slack_ge (precision : Nat) : 1 ≤ slack precision := by
  have positive : (0 : ℚ) ≤ 2 / 2^precision := by positivity
  unfold slack
  linarith

theorem slack_grows {k l : Nat} (order : k ≤ l) : slack precision^k ≤ slack precision^l := pow_le_pow_right₀ (slack_ge _) order

theorem slack_pos (precision k : Nat) : 0 < slack precision^k := pow_pos (lt_of_lt_of_le one_pos (slack_ge _)) k

-- Two numbers that are the same up to `count` roundings.
structure Close (precision count : Nat) (q r : ℚ) : Prop where
  left : q ≤ r * slack precision^count
  right : r ≤ q * slack precision^count

namespace Close

variable {k l : Nat} {q r q' r' : ℚ}

theorem refl (q : ℚ) : Close precision 0 q q := ⟨by simp,by simp⟩

theorem symm (close : Close precision k q r) : Close precision k r q := ⟨close.right,close.left⟩

theorem widen (close : Close precision k q r) (order : k ≤ l) (left : 0 ≤ q) (right : 0 ≤ r) : Close precision l q r :=
  ⟨close.left.trans (mul_le_mul_of_nonneg_left (slack_grows order) right),
    close.right.trans (mul_le_mul_of_nonneg_left (slack_grows order) left)⟩

theorem trans (first : Close precision k q r) (second : Close precision l r q') : Close precision (k + l) q q' := by
  constructor
  · calc q ≤ r * slack precision^k := first.left
      _ ≤ q' * slack precision^l * slack precision^k := mul_le_mul_of_nonneg_right second.left (slack_pos _ _).le
      _ = q' * slack precision^(k + l) := by ring
  · calc q' ≤ r * slack precision^l := second.right
      _ ≤ q * slack precision^k * slack precision^l := mul_le_mul_of_nonneg_right first.right (slack_pos _ _).le
      _ = q * slack precision^(k + l) := by ring

theorem mul (first : Close precision k q r) (second : Close precision l q' r') (hq : 0 ≤ q) (hr : 0 ≤ r)
    (hq' : 0 ≤ q') (hr' : 0 ≤ r') : Close precision (k + l) (q * q') (r * r') := by
  constructor
  · calc q * q' ≤ r * slack precision^k * (r' * slack precision^l) :=
          mul_le_mul first.left second.left hq' (mul_nonneg hr (slack_pos _ _).le)
      _ = r * r' * slack precision^(k + l) := by ring
  · calc r * r' ≤ q * slack precision^k * (q' * slack precision^l) :=
          mul_le_mul first.right second.right hr' (mul_nonneg hq (slack_pos _ _).le)
      _ = q * q' * slack precision^(k + l) := by ring

theorem inv (close : Close precision k q r) (hq : 0 < q) (hr : 0 < r) : Close precision k q⁻¹ r⁻¹ := by
  have flips : ∀ {a b : ℚ}, 0 < a → 0 < b → b ≤ a * slack precision^k → a⁻¹ ≤ b⁻¹ * slack precision^k := by
    intro a b ha hb order
    rw [inv_mul_eq_div,inv_le_comm₀ ha (div_pos (slack_pos _ _) hb),inv_div,div_le_iff₀ (slack_pos _ _)]
    exact order
  exact ⟨flips hq hr close.right,flips hr hq close.left⟩

theorem add (first : Close precision k q r) (second : Close precision k q' r') : Close precision k (q + q') (r + r') :=
  ⟨by rw [add_mul]; exact add_le_add first.left second.left,by rw [add_mul]; exact add_le_add first.right second.right⟩

theorem max (first : Close precision k q r) (second : Close precision k q' r') :
    Close precision k (max q q') (max r r') := by
  constructor
  · rw [max_mul_of_nonneg _ _ (slack_pos _ _).le]
    exact max_le_max first.left second.left
  · rw [max_mul_of_nonneg _ _ (slack_pos _ _).le]
    exact max_le_max first.right second.right

theorem min (first : Close precision k q r) (second : Close precision k q' r') :
    Close precision k (min q q') (min r r') := by
  constructor
  · rw [min_mul_of_nonneg _ _ (slack_pos _ _).le]
    exact min_le_min first.left second.left
  · rw [min_mul_of_nonneg _ _ (slack_pos _ _).le]
    exact min_le_min first.right second.right

theorem round (some : 0 < precision) (order : 0 ≤ q) : Close precision 1 (round precision q) q := by
  have close := round_close precision order
  have digits : (2 : ℚ) ≤ 2^precision := by
    calc (2 : ℚ) = 2^1 := by norm_num
      _ ≤ 2^precision := pow_le_pow_right₀ (by norm_num) some
  have above : (0 : ℚ) < 2^precision := by positivity
  have error : |RoundNearest.round precision q - q| ≤ q / 2^precision := (le_div_iff₀ above).mpr close
  obtain ⟨low,high⟩ := abs_le.mp error
  have small : q / 2^precision ≤ q / 2 := div_le_div_of_nonneg_left order (by norm_num) digits
  constructor
  · have part : q * slack precision^1 = q + 2 * (q / 2^precision) := by
      unfold slack
      ring
    have rest : 0 ≤ q / 2^precision := div_nonneg order above.le
    rw [part]
    linarith
  · have half : q / 2 ≤ RoundNearest.round precision q := by linarith
    have part : RoundNearest.round precision q * slack precision^1 =
        RoundNearest.round precision q + 2 * RoundNearest.round precision q / 2^precision := by
      unfold slack
      ring
    have rest : q / 2^precision ≤ 2 * RoundNearest.round precision q / 2^precision :=
      div_le_div_of_nonneg_right (by linarith) above.le
    rw [part]
    linarith

end Close

namespace Number

variable [NeZero precision] {x y low high : Number precision} {k l : Nat} {q r : ℚ}

theorem close_of (order : 0 ≤ q) : Close precision 1 (of precision q).value q :=
  Close.round (Nat.pos_of_neZero precision) order

theorem close_add (first : Close precision k x.value q) (second : Close precision k y.value r) :
    Close precision (1 + k) (x + y).value (q + r) :=
  (close_of (add_nonneg x.nonneg y.nonneg)).trans (first.add second)

theorem close_mul (first : Close precision k x.value q) (second : Close precision l y.value r) (hq : 0 ≤ q)
    (hr : 0 ≤ r) : Close precision (1 + (k + l)) (x * y).value (q * r) :=
  (close_of (mul_nonneg x.nonneg y.nonneg)).trans (first.mul second x.nonneg hq y.nonneg hr)

theorem close_div (first : Close precision k x.value q) (second : Close precision l y.value r) (hq : 0 ≤ q)
    (hy : 0 < y.value) (hr : 0 < r) : Close precision (1 + (k + l)) (x / y).value (q / r) := by
  have quotient := first.mul (second.inv hy hr) x.nonneg hq (inv_nonneg.mpr hy.le) (inv_nonneg.mpr hr.le)
  rw [← div_eq_mul_inv,← div_eq_mul_inv] at quotient
  exact (close_of (div_nonneg x.nonneg y.nonneg)).trans quotient

omit [NeZero precision] in
theorem close_clamp (close : Close precision k x.value q) (least : Close precision k low.value r)
    (most : Close precision k high.value r') (order : low.value ≤ high.value) :
    Close precision k (x.clamp low high).value (max r (min q r')) := by
  rw [clamp_value order]
  exact least.max (close.min most)

end Number

end RoundNearest
