import BlindEye.Primitives

namespace BlindEye.BlindHash

def hash (c : Crates) (headerBytes : List UInt8) : Digest := c.blake3 headerBytes

def targetFromBits (bits : UInt32) : U128 :=
  let exponent := bits >>> 24
  let mantissa := bits &&& 0x007fffff
  if exponent ≤ 3 then mantissa.toBitVec.setWidth 128 >>> (8 * (3 - exponent)).toNat
  else
    let shift := 8 * (exponent - 3)
    if shift ≥ 128 then BitVec.allOnes 128
    else mantissa.toBitVec.setWidth 128 <<< shift.toNat

-- The counting loop: one more byte while anything is left.
def byteCount (tmp : U128) (size : UInt32) : UInt32 :=
  if tmp > 0 then byteCount (tmp >>> 8) (size + 1) else size
termination_by tmp.toNat
decreasing_by
  rename_i more
  have positive : 0 < tmp.toNat := more
  rw [BitVec.toNat_ushiftRight,Nat.shiftRight_eq_div_pow]
  exact Nat.div_lt_self positive (by decide)

def bitsFromTarget (target : U128) : UInt32 :=
  if target = 0 then 0x01000001
  else
    let size := byteCount target 0
    let compact : UInt32 :=
      if size ≤ 3 then .ofBitVec ((target <<< (8 * (3 - size)).toNat).setWidth 32)
      else .ofBitVec ((target >>> (8 * (size - 3)).toNat).setWidth 32)
    let (compact,size) := if compact &&& 0x00800000 ≠ 0 then (compact >>> 8,size + 1) else (compact,size)
    size <<< 24 ||| (compact &&& 0x007fffff)

end BlindEye.BlindHash
