import BlindEye.Block

namespace BlindEye.CompactTarget
open BlindHash

def exponent (bits : UInt32) : Nat := bits.toNat / 2^24
def mantissa (bits : UInt32) : Nat := bits.toNat % 2^23

-- The target a compact header stands for, in unbounded integers.
def law (bits : UInt32) : Nat :=
  if exponent bits ≤ 3 then mantissa bits / 256^(3 - exponent bits) else mantissa bits * 256^(exponent bits - 3)

theorem exponent_lt (bits : UInt32) : exponent bits < 256 := by
  have bound := bits.toNat_lt
  unfold exponent
  omega

theorem mantissa_lt (bits : UInt32) : mantissa bits < 2^23 := Nat.mod_lt _ (by decide)

theorem exponent_word (bits : UInt32) : (bits >>> 24).toNat = exponent bits := by
  rw [UInt32.toNat_shiftRight,Nat.shiftRight_eq_div_pow]
  rfl

theorem mantissa_word (bits : UInt32) : (bits &&& 0x007fffff).toNat = mantissa bits := by
  rw [UInt32.toNat_and]
  exact Nat.and_two_pow_sub_one_eq_mod bits.toNat 23

theorem bytes_power (n : Nat) : 2^(8 * n) = 256^n := by
  rw [Nat.pow_mul]

-- The shift amounts never wrap, since an exponent is one byte.
theorem shift_right (e : UInt32) (small : e ≤ 3) : (8 * (3 - e)).toNat = 8 * (3 - e.toNat) := by
  rw [UInt32.toNat_mul,UInt32.toNat_sub_of_le _ _ small]
  change 8 * (3 - e.toNat) % 2^32 = _
  omega

theorem shift_left (e : UInt32) (large : 3 ≤ e) (byte : e.toNat < 256) : (8 * (e - 3)).toNat = 8 * (e.toNat - 3) := by
  rw [UInt32.toNat_mul,UInt32.toNat_sub_of_le _ _ large]
  change 8 * (e.toNat - 3) % 2^32 = _
  omega

theorem shift_cut (e : UInt32) (large : 3 ≤ e) (byte : e.toNat < 256) : 8 * (e - 3) ≥ 128 ↔ 18 < e.toNat := by
  have word : (8 * (e - 3)).toNat = 8 * (e.toNat - 3) := shift_left e large byte
  rw [ge_iff_le,UInt32.le_iff_toNat_le,word]
  change 128 ≤ _ ↔ _
  omega

theorem small_word {bits : UInt32} : bits >>> 24 ≤ 3 ↔ exponent bits ≤ 3 := by
  rw [UInt32.le_iff_toNat_le,exponent_word]
  rfl

theorem wide_mantissa (bits : UInt32) : ((bits &&& 0x007fffff).toBitVec.setWidth 128).toNat = mantissa bits := by
  have bound := (bits &&& 0x007fffff).toBitVec.isLt
  rw [BitVec.toNat_setWidth,Nat.mod_eq_of_lt (by omega)]
  exact mantissa_word bits

theorem law_small (small : exponent bits ≤ 3) : law bits < 2^128 := by
  have bound := mantissa_lt bits
  unfold law
  rw [if_pos small]
  have below := Nat.div_le_self (mantissa bits) (256^(3 - exponent bits))
  omega

theorem decoded_small (small : exponent bits ≤ 3) : (targetFromBits bits).toNat = law bits := by
  have word := small_word.mpr small
  unfold targetFromBits law
  rw [if_pos small,if_pos word,shift_right _ word,exponent_word,BitVec.toNat_ushiftRight,wide_mantissa,
    Nat.shiftRight_eq_div_pow,bytes_power]

theorem decoded_large (large : 3 < exponent bits) :
    (targetFromBits bits).toNat = if exponent bits ≤ 18 then law bits % 2^128 else 2^128 - 1 := by
  have word : ¬ bits >>> 24 ≤ 3 := fun small => Nat.not_le.mpr large (small_word.mp small)
  have least := UInt32.le_of_lt (UInt32.not_le.mp word)
  have byte := exponent_word bits ▸ exponent_lt bits
  have shift := shift_left (bits >>> 24) least byte
  have cut := shift_cut (bits >>> 24) least byte
  rw [exponent_word] at shift cut
  unfold targetFromBits law
  rw [if_neg word,if_neg (Nat.not_le.mpr large)]
  by_cases inside : exponent bits ≤ 18
  · rw [if_neg (fun reached => Nat.not_lt.mpr inside (cut.mp reached)),if_pos inside,shift,BitVec.toNat_shiftLeft,
      wide_mantissa,Nat.shiftLeft_eq,bytes_power]
  · rw [if_pos (cut.mpr (Nat.not_le.mp inside)),if_neg inside]
    exact BitVec.toNat_allOnes

theorem decoded (bits : UInt32) :
    (targetFromBits bits).toNat = if exponent bits ≤ 18 then law bits % 2^128 else 2^128 - 1 := by
  by_cases small : exponent bits ≤ 3
  · rw [if_pos (by omega),decoded_small small,Nat.mod_eq_of_lt (law_small small)]
  · exact decoded_large (by omega)

-- The check that `validate` makes of the hash value.
def Passes (bits : UInt32) (value : U128) : Prop := ¬ value > targetFromBits bits

def Lawful (bits : UInt32) (value : U128) : Prop := value.toNat ≤ law bits

-- Up to exponent 18 the target fits, or the value is within what the shift has
-- left of it; above, the mantissa is not zero, or the value is.
def Kept (bits : UInt32) (value : U128) : Prop :=
  (exponent bits ≤ 18 → law bits < 2^128 ∨ value.toNat ≤ law bits % 2^128) ∧
  (18 < exponent bits → mantissa bits ≠ 0 ∨ value = 0)

-- The same for every value at once.
def Exact (bits : UInt32) : Prop :=
  (exponent bits = 17 → mantissa bits < 2^16) ∧ (exponent bits = 18 → mantissa bits < 2^8) ∧
  (18 < exponent bits → mantissa bits ≠ 0)

theorem passes_toNat : Passes bits value ↔ value.toNat ≤ (targetFromBits bits).toNat := by
  unfold Passes
  rw [gt_iff_lt,BitVec.lt_def,Nat.not_lt]

theorem law_large (large : 18 < exponent bits) : law bits = mantissa bits * 256^(exponent bits - 3) := if_neg (by omega)

theorem law_covers (large : 18 < exponent bits) (nonzero : mantissa bits ≠ 0) : 2^128 ≤ law bits := by
  have order : 256^16 ≤ 256^(exponent bits - 3) := Nat.pow_le_pow_right (by decide) (by omega)
  rw [law_large large]
  calc 2^128 = 1 * 256^16 := by decide
    _ ≤ mantissa bits * 256^(exponent bits - 3) := Nat.mul_le_mul (Nat.pos_of_ne_zero nonzero) order

theorem law_low (low : exponent bits ≤ 16) : law bits < 2^127 := by
  have bound := mantissa_lt bits
  unfold law
  split
  · have below := Nat.div_le_self (mantissa bits) (256^(3 - exponent bits))
    omega
  · have order : 256^(exponent bits - 3) ≤ 256^13 := Nat.pow_le_pow_right (by decide) (by omega)
    calc mantissa bits * 256^(exponent bits - 3) ≤ mantissa bits * 256^13 := Nat.mul_le_mul_left _ order
      _ < 2^127 := by omega

theorem law_fits (inside : exponent bits ≤ 18) :
    law bits < 2^128 ↔ (exponent bits = 17 → mantissa bits < 2^16) ∧ (exponent bits = 18 → mantissa bits < 2^8) := by
  by_cases low : exponent bits ≤ 16
  · have fits : law bits < 2^128 := Nat.lt_trans (law_low low) (by decide)
    exact iff_of_true fits ⟨by omega,by omega⟩
  · have cases : exponent bits = 17 ∨ exponent bits = 18 := by omega
    rcases cases with last | last
    · unfold law
      rw [if_neg (by omega),last]
      omega
    · unfold law
      rw [if_neg (by omega),last]
      omega

-- The lowest bit of what a shifted mantissa leaves is never set.
theorem law_rest (inside : exponent bits ≤ 18) : law bits % 2^128 < 2^128 - 1 := by
  by_cases low : exponent bits ≤ 16
  · have small := law_low low
    have below := Nat.mod_le (law bits) (2^128)
    omega
  · have cases : exponent bits = 17 ∨ exponent bits = 18 := by omega
    unfold law
    rw [if_neg (by omega)]
    rcases cases with last | last
    · rw [last]
      omega
    · rw [last]
      omega

theorem passes_lawful (bits : UInt32) (value : U128) : (Passes bits value ↔ Lawful bits value) ↔ Kept bits value := by
  have word := value.isLt
  rw [passes_toNat,decoded]
  unfold Lawful Kept
  by_cases inside : exponent bits ≤ 18
  · rw [if_pos inside]
    have below := Nat.mod_le (law bits) (2^128)
    constructor
    · intro same
      refine ⟨fun _ => ?_,by omega⟩
      by_cases fits : law bits < 2^128
      · exact .inl fits
      · exact .inr (same.mpr (by omega))
    · intro kept
      rcases kept.1 inside with fits | within
      · rw [Nat.mod_eq_of_lt fits]
      · exact iff_of_true within (by omega)
  · rw [if_neg inside]
    have always : value.toNat ≤ 2^128 - 1 := by omega
    constructor
    · intro same
      refine ⟨fun reached => absurd reached inside,fun large => ?_⟩
      by_cases zero : mantissa bits = 0
      · have least := same.mp always
        rw [law_large large,zero,Nat.zero_mul] at least
        exact .inr (BitVec.eq_of_toNat_eq (Nat.le_zero.mp least))
      · exact .inl zero
    · intro kept
      refine iff_of_true always ?_
      rcases kept.2 (by omega) with nonzero | rfl
      · exact Nat.le_of_lt (Nat.lt_of_lt_of_le word (law_covers (by omega) nonzero))
      · exact Nat.zero_le _

theorem exact_kept (bits : UInt32) : Exact bits ↔ ∀ value, Kept bits value := by
  constructor
  · intro exact value
    refine ⟨fun inside => .inl ((law_fits inside).mpr ⟨exact.1,exact.2.1⟩),fun large => .inl (exact.2.2 large)⟩
  · intro kept
    have top := kept (BitVec.allOnes 128)
    have most : (BitVec.allOnes 128).toNat = 2^128 - 1 := BitVec.toNat_allOnes
    have fits : exponent bits ≤ 18 → law bits < 2^128 := by
      intro inside
      refine (top.1 inside).resolve_right fun within => ?_
      have rest := law_rest inside
      omega
    refine ⟨fun last => ((law_fits (by omega)).mp (fits (by omega))).1 last,
      fun last => ((law_fits (by omega)).mp (fits (by omega))).2 last,fun large => ?_⟩
    exact (top.2 large).resolve_right (by decide)

theorem law_order (same : mantissa low = mantissa high) (order : exponent low ≤ exponent high) : law low ≤ law high := by
  have power : ∀ {j k}, j ≤ k → 256^j ≤ 256^k := fun less => Nat.pow_le_pow_right (by decide) less
  unfold law
  rw [same]
  by_cases small : exponent high ≤ 3
  · rw [if_pos small,if_pos (Nat.le_trans order small)]
    exact Nat.div_le_div_left (power (by omega)) (Nat.pow_pos (by decide))
  · rw [if_neg small]
    split
    · exact Nat.le_trans (Nat.div_le_self _ _) (Nat.le_mul_of_pos_right _ (Nat.pow_pos (by decide)))
    · exact Nat.mul_le_mul_left _ (power (by omega))

theorem target_order (same : mantissa low = mantissa high) (order : exponent low ≤ exponent high)
    (fits : exponent high ≤ 18 → law high < 2^128) : targetFromBits low ≤ targetFromBits high := by
  rw [BitVec.le_def,decoded high]
  by_cases inside : exponent high ≤ 18
  · rw [if_pos inside,Nat.mod_eq_of_lt (fits inside),decoded low,if_pos (Nat.le_trans order inside)]
    exact Nat.le_trans (Nat.mod_le _ _) (law_order same order)
  · rw [if_neg inside]
    exact Nat.le_sub_one_of_lt (targetFromBits low).isLt

theorem target_zero (zero : mantissa bits = 0) : targetFromBits bits = 0 ↔ exponent bits ≤ 18 := by
  have none : law bits = 0 := by
    unfold law
    rw [zero]
    simp
  have value := decoded bits
  rw [none] at value
  constructor
  · intro absent
    by_contra outside
    rw [if_neg outside,absent] at value
    exact absurd value (by decide)
  · intro inside
    rw [if_pos inside] at value
    exact BitVec.eq_of_toNat_eq value

-- What `validate` asks of a block before it looks at the work.
structure Complete (c : Crates) (block : Block) (previous : Option Block) : Prop where
  nonempty : block.transactions ≠ []
  parent : block.validateParent c previous = .ok ()
  merkle : block.header.merkleRoot = Block.calculateMerkleRoot c block.transactions

-- The check agrees with the law on a value, and on all values, exactly when no
-- high bit is dropped that mattered and no zero mantissa is cut off to the top.
theorem check_exact (c : Crates) :
    (∀ bits value, (Passes bits value ↔ Lawful bits value) ↔ Kept bits value) ∧
    (∀ bits, (∀ value, Passes bits value ↔ Lawful bits value) ↔ Exact bits) ∧
    (∀ block previous, block.validate c previous = .ok () ↔
      Complete c block previous ∧ Passes block.header.bits (block.hashValue c)) ∧
    (∀ block previous, Complete c block previous →
      ((block.validate c previous = .ok () ↔ Lawful block.header.bits (block.hashValue c)) ↔
        Kept block.header.bits (block.hashValue c))) ∧
    (∀ bits, mantissa bits = 0 → (targetFromBits bits = 0 ↔ exponent bits ≤ 18)) ∧
    (∀ low high, mantissa low = mantissa high → exponent low ≤ exponent high →
      (exponent high ≤ 18 → law high < 2^128) → targetFromBits low ≤ targetFromBits high) := by
  have accepted : ∀ block previous, block.validate c previous = .ok () ↔
      Complete c block previous ∧ Passes block.header.bits (block.hashValue c) := by
    intro block previous
    rw [Block.validate_exact]
    constructor
    · intro passed
      obtain ⟨parent,nonempty,merkle,work⟩ := passed
      exact ⟨⟨nonempty,parent,merkle⟩,BitVec.not_lt.mpr work⟩
    · intro passed
      obtain ⟨complete,work⟩ := passed
      exact ⟨complete.parent,complete.nonempty,complete.merkle,BitVec.not_lt.mp work⟩
  refine ⟨passes_lawful,?_,accepted,?_,fun _ => target_zero,fun _ _ => target_order⟩
  · intro bits
    rw [exact_kept]
    exact forall_congr' fun value => passes_lawful bits value
  · intro block previous complete
    rw [← passes_lawful,accepted,and_iff_right complete]

-- A zero mantissa that every hash meets, and an exponent whose target lost its only bit.
theorem check_unlawful :
    (Passes 0x13000000 (BitVec.allOnes 128) ∧ ¬ Lawful 0x13000000 (BitVec.allOnes 128)) ∧
    (¬ Passes 0x11010000 1 ∧ Lawful 0x11010000 1) ∧
    ¬ (∀ bits value, Passes bits value ↔ Lawful bits value) := by
  have easy : Passes 0x13000000 (BitVec.allOnes 128) ∧ ¬ Lawful 0x13000000 (BitVec.allOnes 128) := by
    unfold Passes Lawful
    decide
  refine ⟨easy,?_,fun all => easy.2 ((all _ _).mp easy.1)⟩
  unfold Passes Lawful
  decide

end BlindEye.CompactTarget
