import Mathlib
import BlindEye.Library.LittleEndian

namespace BlindEye

structure Digest where
  bytes : List UInt8
  size : bytes.length = 32
  deriving DecidableEq

def Digest.zero : Digest := ⟨List.replicate 32 0,by simp⟩

theorem Digest.ext_bytes {x y : Digest} (equal : x.bytes = y.bytes) : x = y := by
  cases x; cases y; cases equal; rfl

abbrev HashMap (K V : Type) := Finmap (fun _ : K => V)
abbrev U128 := BitVec 128

-- The functions of blake3, secp256k1 and hex that the program calls. Nothing
-- is assumed of them here; a theorem that needs more says so.
structure Crates where
  blake3 : List UInt8 → Digest
  PublicKey : Type
  fromSlice : List UInt8 → Option PublicKey
  serialize : PublicKey → List UInt8
  hexEncode : List UInt8 → String

-- The answers of the program's fallible functions, with the text of the error.
abbrev Answer := Except String Unit

def u32Bytes (x : UInt32) : List UInt8 := LittleEndian.toBytes 4 x.toNat
def u64Bytes (x : UInt64) : List UInt8 := LittleEndian.toBytes 8 x.toNat

@[simp] theorem u32Bytes_length (x : UInt32) : (u32Bytes x).length = 4 := by simp [u32Bytes]
@[simp] theorem u64Bytes_length (x : UInt64) : (u64Bytes x).length = 8 := by simp [u64Bytes]

theorem u32Bytes_injective (equal : u32Bytes x = u32Bytes y) : x = y :=
  UInt32.toNat_inj.mp (LittleEndian.toBytes_injective x.toNat_lt y.toNat_lt equal)

def utf8Bytes (text : String) : List UInt8 := text.toUTF8.data.toList

theorem utf8Bytes_text : String.fromUTF8? ⟨(utf8Bytes text).toArray⟩ = some text := by
  have same : (⟨(utf8Bytes text).toArray⟩ : ByteArray) = text.toUTF8 := rfl
  rw [same]
  exact dif_pos text.isValidUTF8

theorem text_utf8Bytes (read : String.fromUTF8? ⟨bytes.toArray⟩ = some text) : utf8Bytes text = bytes := by
  unfold String.fromUTF8? at read
  split at read
  · cases read
    rfl
  · cases read

theorem toNat_reaches (fits : n < 2^64) : ∃ x : UInt64, x.toNat = n := ⟨_,UInt64.toNat_ofNat_of_lt' fits⟩

def checkedAdd (x y : UInt64) : Option UInt64 := if x.toNat + y.toNat < 2^64 then some (x + y) else none

theorem checkedAdd_exact : checkedAdd x y = some z ↔ z.toNat = x.toNat + y.toNat := by
  have bound := z.toNat_lt
  have wraps := UInt64.toNat_add x y
  unfold checkedAdd
  split
  · rename_i fits
    rw [Nat.mod_eq_of_lt fits] at wraps
    rw [Option.some.injEq,← UInt64.toNat_inj,wraps,eq_comm]
  · constructor
    · intro absurd; cases absurd
    · intro exact; omega

-- What `saturating_add` and `saturating_mul` make of an exact result.
def saturate (n : Nat) : UInt64 := UInt64.ofNat (min n (2^64 - 1))

theorem saturate_toNat (n : Nat) : (saturate n).toNat = min n (2^64 - 1) := by
  apply UInt64.toNat_ofNat_of_lt'
  rw [UInt64.size]
  omega

def checkedMul (x y : UInt64) : Option UInt64 := if x.toNat * y.toNat < 2^64 then some (x * y) else none

theorem checkedMul_exact : checkedMul x y = some z ↔ z.toNat = x.toNat * y.toNat := by
  have bound := z.toNat_lt
  have wraps := UInt64.toNat_mul x y
  unfold checkedMul
  split
  · rename_i fits
    rw [Nat.mod_eq_of_lt fits] at wraps
    rw [Option.some.injEq,← UInt64.toNat_inj,wraps,eq_comm]
  · constructor
    · intro absurd; cases absurd
    · intro exact; omega

-- The Unicode property White_Space.
def isWhiteSpace (ch : Char) : Bool :=
  let n := ch.toNat
  (9 ≤ n && n ≤ 13) || n == 32 || n == 0x85 || n == 0xA0 || n == 0x1680 || (0x2000 ≤ n && n ≤ 0x200A) ||
    n == 0x2028 || n == 0x2029 || n == 0x202F || n == 0x205F || n == 0x3000

theorem plain_size (plain : ∀ ch ∈ text, Char.utf8Size ch = 1) : (String.ofList text).utf8ByteSize = text.length := by
  induction text with
  | nil => rfl
  | cons ch rest ih =>
    have single := plain ch List.mem_cons_self
    have later := ih fun other member => plain other (List.mem_cons_of_mem ch member)
    rw [String.utf8ByteSize_ofList] at later ⊢
    simp [later,single]

-- `str::trim`.
def strTrim (text : List Char) : List Char := (text.dropWhile isWhiteSpace).rdropWhile isWhiteSpace

-- `u64::from_str`: an optional plus sign before the decimal digits.
def readDigits : UInt64 → List Char → Option UInt64
  | value,[] => some value
  | value,ch :: rest =>
    if ch.isDigit then do
      let tens ← checkedMul value 10
      let value ← checkedAdd tens (UInt64.ofNat (ch.toNat - '0'.toNat))
      readDigits value rest
    else none

def parseU64 : List Char → Option UInt64
  | [] => none
  | ['+'] => none
  | ['-'] => none
  | '+' :: digits => readDigits 0 digits
  | digits => readDigits 0 digits

end BlindEye
