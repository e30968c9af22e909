import Mathlib

namespace LittleEndian

-- The `count` low bytes of a number, lowest first, and the number that a list
-- of such bytes spells.
def toBytes : Nat → Nat → List UInt8
  | 0,_ => []
  | count+1,n => UInt8.ofNat n :: toBytes count (n / 256)

def fromBytes : List UInt8 → Nat
  | [] => 0
  | b :: rest => b.toNat + 256 * fromBytes rest

@[simp] theorem toBytes_length (count n : Nat) : (toBytes count n).length = count := by
  induction count generalizing n with
  | zero => rfl
  | succ count ih => simp [toBytes,ih]

theorem fromBytes_toBytes (bound : n < 256^count) : fromBytes (toBytes count n) = n := by
  induction count generalizing n with
  | zero => simp only [Nat.pow_zero,Nat.lt_one_iff] at bound; simp [toBytes,fromBytes,bound]
  | succ count ih =>
    have small : n / 256 < 256^count := by
      rw [Nat.div_lt_iff_lt_mul (by decide)]
      simpa [Nat.pow_succ] using bound
    simp only [toBytes,fromBytes,ih small,UInt8.toNat_ofNat']
    omega

theorem toBytes_fromBytes (bytes : List UInt8) : toBytes bytes.length (fromBytes bytes) = bytes := by
  induction bytes with
  | nil => rfl
  | cons b rest ih =>
    have bound := b.toNat_lt
    have low : UInt8.ofNat (b.toNat + 256 * fromBytes rest) = b := by
      apply UInt8.toNat_inj.mp
      rw [UInt8.toNat_ofNat']
      omega
    have high : (b.toNat + 256 * fromBytes rest) / 256 = fromBytes rest := by omega
    rw [List.length_cons,fromBytes,toBytes,low,high,ih]

theorem fromBytes_lt (bytes : List UInt8) : fromBytes bytes < 256^bytes.length := by
  induction bytes with
  | nil => decide
  | cons byte rest ih =>
    have small := byte.toNat_lt
    rw [fromBytes,List.length_cons,Nat.pow_succ]
    omega

theorem toBytes_injective (left : m < 256^count) (right : n < 256^count)
    (equal : toBytes count m = toBytes count n) : m = n := by
  rw [← fromBytes_toBytes left,equal,fromBytes_toBytes right]

end LittleEndian
