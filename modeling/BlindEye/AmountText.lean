import BlindEye.Library.Decimal
import BlindEye.Protocol

namespace BlindEye.AmountText
open Protocol Decimal

def Digits (text : List Char) : Prop := ∀ ch ∈ text, Char.isDigit ch = true

-- The whole coins: nothing, or digits behind an optional plus sign.
inductive Whole : List Char → Nat → Prop where
  | empty : Whole [] 0
  | digits (nonempty : text ≠ []) (digits : Digits text) : Whole text (value text)
  | plus (nonempty : text ≠ []) (digits : Digits text) : Whole ('+' :: text) (value text)

-- At most eight decimals, read as if filled up with zeros.
structure Fraction (text : List Char) (units : Nat) : Prop where
  digits : Digits text
  short : text.length ≤ 8
  padded : units = value (text ++ List.replicate (8 - text.length) '0')

inductive Form : List Char → Nat → Prop where
  | whole (coins : Whole text n) : Form text (n * 100000000)
  | fraction (coins : Whole text n) (decimals : Fraction part units) : Form (text ++ '.' :: part) (n * 100000000 + units)

-- The amounts a text stands for, in unbounded integers.
def Written (input : String) (n : Nat) : Prop := strTrim input.toList ≠ [] ∧ Form (strTrim input.toList) n

theorem readDigits_exact (before : UInt64) (text : List Char) (after : UInt64) :
    readDigits before text = some after ↔ Digits text ∧ after.toNat = continued before.toNat text := by
  induction text generalizing before with
  | nil =>
    simp only [readDigits,continued_nil,Option.some.injEq,← UInt64.toNat_inj]
    constructor
    · intro same
      exact ⟨fun _ absent => absurd absent List.not_mem_nil,same.symm⟩
    · intro same
      exact same.2.symm
  | cons ch rest ih =>
    rw [continued_cons]
    by_cases digit : ch.isDigit
    · have small := digit_le digit
      have unit : (UInt64.ofNat (ch.toNat - '0'.toNat)).toNat = ch.toNat - '0'.toNat :=
        UInt64.toNat_ofNat_of_lt' (by rw [UInt64.size]; omega)
      have covered : Digits (ch :: rest) ↔ Digits rest := by
        simp [Digits,digit]
      rw [readDigits,if_pos digit,covered]
      have bound := continued_ge (before.toNat * 10 + (ch.toNat - '0'.toNat)) rest
      have word := after.toNat_lt
      constructor
      · intro read
        obtain ⟨tens,times,read⟩ := Option.bind_eq_some_iff.mp read
        obtain ⟨next,plus,read⟩ := Option.bind_eq_some_iff.mp read
        have product := checkedMul_exact.mp times
        have sum := checkedAdd_exact.mp plus
        rw [unit,product] at sum
        rw [← show next.toNat = before.toNat * 10 + (ch.toNat - '0'.toNat) from sum]
        exact (ih next).mp read
      · intro read
        obtain ⟨digits,total⟩ := read
        obtain ⟨tens,product⟩ := toNat_reaches (n := before.toNat * 10) (by omega)
        obtain ⟨next,sum⟩ := toNat_reaches (n := before.toNat * 10 + (ch.toNat - '0'.toNat)) (by omega)
        have times : checkedMul before 10 = some tens := checkedMul_exact.mpr product
        have plus : checkedAdd tens (UInt64.ofNat (ch.toNat - '0'.toNat)) = some next :=
          checkedAdd_exact.mpr (by rw [unit,product,sum])
        have later := (ih next).mpr ⟨digits,by rw [sum]; exact total⟩
        exact Option.bind_eq_some_iff.mpr ⟨tens,times,Option.bind_eq_some_iff.mpr ⟨next,plus,later⟩⟩
    · have outside : ¬ Digits (ch :: rest) := fun digits => digit (digits ch List.mem_cons_self)
      rw [readDigits,if_neg digit]
      simp [outside]

theorem readDigits_value (text : List Char) (after : UInt64) :
    readDigits 0 text = some after ↔ Digits text ∧ after.toNat = value text := readDigits_exact 0 text after

theorem sign_not_digit : ¬ Digits ('+' :: text) := by
  intro digits
  exact absurd (digits '+' List.mem_cons_self) (by decide)

theorem whole_plus : Whole ('+' :: text) n ↔ text ≠ [] ∧ Digits text ∧ n = value text := by
  constructor
  · intro whole
    cases whole with
    | digits _ digits => exact absurd digits sign_not_digit
    | plus nonempty digits => exact ⟨nonempty,digits,rfl⟩
  · intro parts
    obtain ⟨nonempty,digits,rfl⟩ := parts
    exact .plus nonempty digits

theorem whole_digits (nonempty : text ≠ []) (unsigned : ∀ rest, text ≠ '+' :: rest) :
    Whole text n ↔ Digits text ∧ n = value text := by
  constructor
  · intro whole
    cases whole with
    | empty => exact absurd rfl nonempty
    | digits _ digits => exact ⟨digits,rfl⟩
    | plus => exact absurd rfl (unsigned _)
  · intro parts
    obtain ⟨digits,rfl⟩ := parts
    exact .digits nonempty digits

theorem parseU64_exact (text : List Char) (n : UInt64) : parseU64 text = some n ↔ text ≠ [] ∧ Whole text n.toNat := by
  unfold parseU64
  split
  · simp
  · simp [whole_plus]
  · have outside : ¬ Digits ['-'] := fun digits => absurd (digits '-' List.mem_cons_self) (by decide)
    rw [whole_digits (by simp) (by simp)]
    simp [outside]
  · rename_i text single
    have nonempty : text ≠ [] := fun empty => single (by rw [empty])
    rw [readDigits_value,whole_plus]
    simp [nonempty]
  · rename_i empty _ _ unsigned
    have nonempty : text ≠ [] := empty
    rw [readDigits_value,whole_digits nonempty unsigned]
    simp [nonempty]

theorem whole_part (text : List Char) (n : UInt64) :
    (if text = [] then some 0 else parseU64 text) = some n ↔ Whole text n.toNat := by
  by_cases empty : text = []
  · rw [if_pos empty,empty,Option.some.injEq]
    constructor
    · rintro rfl
      exact .empty
    · intro whole
      cases written : n.toNat with
      | zero => exact UInt64.toNat_inj.mp written.symm
      | succ m =>
        rw [written] at whole
        cases whole
  · rw [if_neg empty,parseU64_exact,and_iff_right empty]

theorem digits_size (digits : Digits text) : (String.ofList text).utf8ByteSize = text.length := by
  apply plain_size
  intro ch member
  have digit := digits ch member
  simp only [Char.isDigit,ge_iff_le,Bool.and_eq_true,decide_eq_true_eq] at digit
  exact Char.utf8Size_eq_one_iff.mpr (UInt32.le_trans digit.2 (by decide))

theorem digits_padded (digits : Digits text) (n : Nat) : Digits (text ++ List.replicate n '0') := by
  intro ch member
  rcases List.mem_append.mp member with inside | zero
  · exact digits ch inside
  · rw [List.eq_of_mem_replicate zero]
    rfl

theorem parseFraction_exact (part : List Char) (units : UInt64) :
    parseFraction (some part) = .ok units ↔ Fraction part units.toNat := by
  constructor
  · intro read
    simp only [parseFraction] at read
    split at read
    · cases read
    · rename_i narrow
      split at read
      · cases read
      · rename_i digital
        have digits : Digits part := List.all_eq_true.mp (not_not.mp digital)
        have short : part.length ≤ 8 := digits_size digits ▸ Nat.not_lt.mp narrow
        obtain ⟨nonempty,whole⟩ := (parseU64_exact _ _).mp (Fallible.okOr_ok.mp read)
        have plain : Digits (part ++ List.replicate (8 - part.length) '0') := digits_padded digits _
        have unsigned : ∀ rest, part ++ List.replicate (8 - part.length) '0' ≠ '+' :: rest :=
          fun rest same => sign_not_digit (same ▸ plain)
        exact ⟨digits,short,((whole_digits nonempty unsigned).mp whole).2⟩
  · intro fraction
    have size := digits_size fraction.digits
    have short := fraction.short
    have plain : Digits (part ++ List.replicate (8 - part.length) '0') := digits_padded fraction.digits _
    have nonempty : part ++ List.replicate (8 - part.length) '0' ≠ [] := by
      intro empty
      have lengths := congrArg List.length empty
      simp only [List.length_append,List.length_replicate,List.length_nil] at lengths
      omega
    have parsed := (parseU64_exact _ units).mpr ⟨nonempty,fraction.padded ▸ .digits nonempty plain⟩
    have digital : part.all Char.isDigit = true := List.all_eq_true.mpr fraction.digits
    rw [parseFraction,if_neg (by omega),if_neg (not_not.mpr digital),parsed]
    rfl

-- The text before the first point, and what lies behind it.
theorem split_parts (text : List Char) :
    text.splitOn '.' = [text] ∨ (∃ whole part, text.splitOn '.' = [whole,part] ∧ text = whole ++ '.' :: part) ∨
      (text.splitOn '.')[2]?.isSome = true := by
  have joined : ['.'].intercalate (text.splitOn '.') = text := List.intercalate_splitOn '.'
  match split : text.splitOn '.' with
  | [] => exact absurd split (List.splitOn_ne_nil '.' text)
  | [whole] =>
    rw [split] at joined
    left
    rw [← joined]
    simp
  | [whole,part] =>
    rw [split] at joined
    refine .inr (.inl ⟨whole,part,rfl,?_⟩)
    rw [← joined]
    simp
  | _ :: _ :: third :: _ => exact .inr (.inr rfl)

theorem digits_pointless (digits : Digits text) : '.' ∉ text := fun point => absurd (digits '.' point) (by decide)

theorem whole_pointless (whole : Whole text n) : '.' ∉ text := by
  cases whole with
  | empty => exact List.not_mem_nil
  | digits _ digits => exact digits_pointless digits
  | plus _ digits =>
    intro point
    rcases List.mem_cons.mp point with sign | inside
    · exact absurd sign (by decide)
    · exact digits_pointless digits inside

theorem whole_split (whole : Whole text n) : text.splitOn '.' = [text] := by
  have pointless : ∀ l ∈ [text], '.' ∉ l := by
    intro l member
    rw [List.mem_singleton.mp member]
    exact whole_pointless whole
  have split : (['.'].intercalate [text]).splitOn '.' = [text] := List.splitOn_intercalate '.' pointless (by simp)
  simpa using split

theorem fraction_split (whole : Whole text n) (fraction : Fraction part units) :
    (text ++ '.' :: part).splitOn '.' = [text,part] := by
  have pointless : ∀ l ∈ [text,part], '.' ∉ l := by
    intro l member
    rcases List.mem_pair.mp member with rfl | rfl
    · exact whole_pointless whole
    · exact digits_pointless fraction.digits
  have split : (['.'].intercalate [text,part]).splitOn '.' = [text,part] := List.splitOn_intercalate '.' pointless (by simp)
  simpa using split

theorem whole_unsigned (whole : Whole text n) : text.head? ≠ some '-' := by
  cases whole with
  | empty => simp
  | digits _ digits =>
    intro signed
    exact absurd (digits '-' (List.mem_of_mem_head? signed)) (by decide)
  | plus => simp

theorem form_unsigned (form : Form text n) : text.head? ≠ some '-' := by
  cases form with
  | whole coins => exact whole_unsigned coins
  | @fraction whole _ _ _ coins =>
    cases whole with
    | nil => simp
    | cons =>
      have front := whole_unsigned coins
      simpa using front

theorem coin_toNat : coin.toNat = 100000000 := by decide

theorem parse_sound (parsed : parseBecAmount input = .ok amount) : Written input amount.toNat := by
  simp only [parseBecAmount] at parsed
  split at parsed
  · cases parsed
  · rename_i nonempty
    refine ⟨nonempty,?_⟩
    split at parsed
    · cases parsed
    · split at parsed
      · cases parsed
      · rename_i pointless
        obtain ⟨whole,coins,parsed⟩ := Fallible.bind_ok.mp parsed
        obtain ⟨wholeUnits,times,parsed⟩ := Fallible.bind_ok.mp parsed
        obtain ⟨fractionalUnits,fraction,plus⟩ := Fallible.bind_ok.mp parsed
        have counted := (whole_part _ whole).mp (Fallible.okOr_ok.mp coins)
        have product := checkedMul_exact.mp (Fallible.okOr_ok.mp times)
        have sum := checkedAdd_exact.mp (Fallible.okOr_ok.mp plus)
        rw [product,coin_toNat] at sum
        rcases split_parts (strTrim input.toList) with single | pair | many
        · rw [single] at counted fraction
          cases fraction
          rw [sum,UInt64.toNat_zero,Nat.add_zero]
          exact .whole counted
        · obtain ⟨text,part,pieces,joined⟩ := pair
          rw [pieces] at counted fraction
          rw [joined,sum]
          exact .fraction counted ((parseFraction_exact part fractionalUnits).mp fraction)
        · exact absurd many pointless

theorem whole_fits (whole : Whole text n) (fits : n * 100000000 + units < 2^64) :
    ∃ coins wholeUnits, (if text = [] then some 0 else parseU64 text) = some coins ∧
      checkedMul coins coin = some wholeUnits ∧ wholeUnits.toNat = n * 100000000 := by
  obtain ⟨coins,counted⟩ := toNat_reaches (n := n) (by omega)
  obtain ⟨wholeUnits,product⟩ := toNat_reaches (Nat.lt_of_le_of_lt (Nat.le_add_right _ _) fits)
  have times : checkedMul coins coin = some wholeUnits := checkedMul_exact.mpr (by rw [product,counted,coin_toNat])
  exact ⟨coins,wholeUnits,(whole_part text coins).mpr (counted ▸ whole),times,product⟩

theorem parse_complete (written : Written input amount.toNat) : parseBecAmount input = .ok amount := by
  obtain ⟨nonempty,form⟩ := written
  have unsigned := form_unsigned form
  have word := amount.toNat_lt
  generalize worth : amount.toNat = n at form
  simp only [parseBecAmount]
  generalize strTrim input.toList = text at form nonempty unsigned
  rw [if_neg nonempty,if_neg unsigned]
  cases form with
  | @whole _ n counted =>
    have fits : n * 100000000 + 0 < 2^64 := by omega
    obtain ⟨coins,wholeUnits,read,times,product⟩ := whole_fits counted fits
    have plus : checkedAdd wholeUnits 0 = some amount :=
      checkedAdd_exact.mpr (by rw [worth,product,UInt64.toNat_zero,Nat.add_zero])
    rw [whole_split counted,if_neg (by simp)]
    refine Fallible.bind_ok.mpr ⟨coins,Fallible.okOr_ok.mpr read,?_⟩
    refine Fallible.bind_ok.mpr ⟨wholeUnits,Fallible.okOr_ok.mpr times,?_⟩
    exact Fallible.bind_ok.mpr ⟨0,rfl,Fallible.okOr_ok.mpr plus⟩
  | @fraction text _ part units counted decimals =>
    obtain ⟨coins,wholeUnits,read,times,product⟩ := whole_fits counted (worth ▸ word)
    obtain ⟨fractionalUnits,rest⟩ := toNat_reaches (n := units) (by omega)
    have fraction := (parseFraction_exact part fractionalUnits).mpr (rest ▸ decimals)
    have plus : checkedAdd wholeUnits fractionalUnits = some amount := checkedAdd_exact.mpr (by rw [worth,product,rest])
    rw [fraction_split counted decimals,if_neg (by simp)]
    refine Fallible.bind_ok.mpr ⟨coins,Fallible.okOr_ok.mpr read,?_⟩
    refine Fallible.bind_ok.mpr ⟨wholeUnits,Fallible.okOr_ok.mpr times,?_⟩
    exact Fallible.bind_ok.mpr ⟨fractionalUnits,fraction,Fallible.okOr_ok.mpr plus⟩

theorem digit_visible (digit : Char.isDigit ch = true) : isWhiteSpace ch = false := by
  simp only [Char.isDigit,ge_iff_le,Bool.and_eq_true,decide_eq_true_eq] at digit
  have lower := UInt32.le_iff_toNat_le.mp digit.1
  have upper := UInt32.le_iff_toNat_le.mp digit.2
  change 48 ≤ ch.toNat at lower
  change ch.toNat ≤ 57 at upper
  simp [isWhiteSpace]
  omega

theorem strTrim_visible (visible : ∀ ch ∈ text, isWhiteSpace ch = false) : strTrim text = text := by
  have front : text.dropWhile isWhiteSpace = text := by
    rw [List.dropWhile_eq_self_iff]
    intro some
    simp [visible _ (List.getElem_mem some)]
  rw [strTrim,front,List.rdropWhile_eq_self_iff]
  intro nonempty
  simp [visible _ (List.getLast_mem nonempty)]

theorem toDigits_whole (n : Nat) : Whole (Nat.toDigits 10 n) n := by
  have whole : Whole (Nat.toDigits 10 n) (value (Nat.toDigits 10 n)) := .digits Nat.toDigits_ne_nil (toDigits_digits n)
  rwa [value_toDigits] at whole

-- The eight decimals that are printed, before their trailing zeros go.
theorem decimals_fraction (n : Nat) (small : n < 100000000) :
    Fraction ((List.replicate (8 - (Nat.toDigits 10 n).length) '0' ++ Nat.toDigits 10 n).rdropWhile (· == '0')) n := by
  have length : (Nat.toDigits 10 n).length ≤ 8 := (Nat.length_toDigits_le_iff (by omega) (by omega)).mpr small
  have digits : Digits (List.replicate (8 - (Nat.toDigits 10 n).length) '0' ++ Nat.toDigits 10 n) := by
    intro ch member
    rcases List.mem_append.mp member with zero | inside
    · rw [List.eq_of_mem_replicate zero]
      rfl
    · exact toDigits_digits n ch inside
  have zeros := zeros_back (List.replicate (8 - (Nat.toDigits 10 n).length) '0' ++ Nat.toDigits 10 n)
  have eight : (List.replicate (8 - (Nat.toDigits 10 n).length) '0' ++ Nat.toDigits 10 n).length = 8 := by
    rw [List.length_append,List.length_replicate]
    omega
  have front := List.rdropWhile_prefix (· == '0') (List.replicate (8 - (Nat.toDigits 10 n).length) '0' ++ Nat.toDigits 10 n)
  rw [eight] at zeros
  refine ⟨fun ch member => digits ch (front.subset member),?_,?_⟩
  · have most := front.length_le
    rwa [eight] at most
  · rw [zeros,value_zeros,value_toDigits]

theorem format_form (amount : UInt64) : Form (formatBecAmount amount).toList amount.toNat := by
  have whole : (amount / coin).toNat = amount.toNat / 100000000 := by rw [UInt64.toNat_div,coin_toNat]
  have rest : (amount % coin).toNat = amount.toNat % 100000000 := by rw [UInt64.toNat_mod,coin_toNat]
  have split := Nat.div_add_mod' amount.toNat 100000000
  unfold formatBecAmount
  simp only
  split
  · rename_i even
    have none : amount.toNat % 100000000 = 0 := by rw [← rest,even]; rfl
    rw [String.toList_ofList,whole]
    have form := Form.whole (toDigits_whole (amount.toNat / 100000000))
    rw [none,Nat.add_zero] at split
    rwa [split] at form
  · rw [String.toList_ofList,whole,rest]
    have form := Form.fraction (toDigits_whole (amount.toNat / 100000000))
      (decimals_fraction (amount.toNat % 100000000) (Nat.mod_lt _ (by omega)))
    rwa [split] at form

theorem whole_visible (whole : Whole text n) : ∀ ch ∈ text, isWhiteSpace ch = false := by
  cases whole with
  | empty => simp
  | digits _ digits => exact fun ch member => digit_visible (digits ch member)
  | plus _ digits =>
    intro ch member
    rcases List.mem_cons.mp member with rfl | inside
    · rfl
    · exact digit_visible (digits ch inside)

theorem form_visible (form : Form text n) : ∀ ch ∈ text, isWhiteSpace ch = false := by
  cases form with
  | whole coins => exact whole_visible coins
  | fraction coins decimals =>
    intro ch member
    rcases List.mem_append.mp member with front | back
    · exact whole_visible coins ch front
    · rcases List.mem_cons.mp back with rfl | inside
      · rfl
      · exact digit_visible (decimals.digits ch inside)

theorem format_nonempty (amount : UInt64) : (formatBecAmount amount).toList ≠ [] := by
  unfold formatBecAmount
  simp only
  split
  · rw [String.toList_ofList]
    exact Nat.toDigits_ne_nil
  · simp

theorem format_written (amount : UInt64) : Written (formatBecAmount amount) amount.toNat := by
  have form := format_form amount
  have same := strTrim_visible (form_visible form)
  refine ⟨?_,?_⟩
  · rw [same]
    exact format_nonempty amount
  · rw [same]
    exact form

-- Printing and reading back loses nothing, and what is read is exactly what the
-- text says: a text that says no amount below 2^64 is refused.
theorem amounts_exact :
    (∀ amount, parseBecAmount (formatBecAmount amount) = .ok amount) ∧
    (∀ input amount, parseBecAmount input = .ok amount ↔ Written input amount.toNat) ∧
    (∀ input, (∃ amount, parseBecAmount input = .ok amount) ↔ ∃ n, Written input n ∧ n < 2^64) := by
  refine ⟨fun amount => parse_complete (format_written amount),fun _ _ => ⟨parse_sound,parse_complete⟩,?_⟩
  intro input
  constructor
  · intro accepted
    obtain ⟨amount,parsed⟩ := accepted
    exact ⟨amount.toNat,parse_sound parsed,amount.toNat_lt⟩
  · intro written
    obtain ⟨n,form,fits⟩ := written
    obtain ⟨amount,rfl⟩ := toNat_reaches fits
    exact ⟨amount,parse_complete form⟩

end BlindEye.AmountText
