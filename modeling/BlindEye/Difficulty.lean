import BlindEye.Blockchain
import BlindEye.Library.RoundNearest

namespace BlindEye

-- The f64 values of `next_work_bits`: none is negative, and `retarget_normal` shows
-- that none leaves the range of the exponent.
abbrev F64 := RoundNearest.Number 53

namespace F64
open RoundNearest

def ofNat (n : Nat) : F64 := .of 53 n

-- `as u128` cuts the fraction off and stops at the largest value.
def toU128 (x : F64) : U128 := .ofNat 128 (min ⌊x.value⌋₊ (2^128 - 1))

def max (x y : F64) : F64 := if x.value < y.value then y else x

end F64

namespace Blockchain
open BlindHash Protocol

def txRatio (txCount : Nat) : F64 := ((1 : F64) / (1 + F64.ofNat txCount * .of 53 0.03)).clamp (.of 53 0.55) 1

def applyTxPressure (bits : UInt32) (txCount : Nat) : UInt32 :=
  let target := targetFromBits bits
  bitsFromTarget (F64.toU128 (F64.max (F64.ofNat target.toNat * txRatio txCount) 1))

def retargetRatio (firstTimestamp lastTimestamp : UInt64) (window : Nat) : F64 :=
  let expectedSpan := defaultBlockTimeSeconds * UInt64.ofNat (window - 1)
  let actualSpan := max (if lastTimestamp < firstTimestamp then 0 else lastTimestamp - firstTimestamp) 1
  (F64.ofNat actualSpan.toNat / F64.ofNat (max expectedSpan 1).toNat).clamp (.of 53 0.5) (.of 53 2)

def adjustedTarget (baseTarget : U128) (retargetRatio : F64) (txCount : Nat) : F64 :=
  (F64.ofNat baseTarget.toNat * retargetRatio * txRatio txCount).clamp 1 (F64.ofNat (2^128 - 1))

-- The window has at least two hashes, so that neither access to its ends panics.
def nextWorkBits (s : Blockchain) (txCount : Nat) : UInt32 :=
  if s.bestChain.length < 2 then applyTxPressure defaultBits txCount
  else
    let window := min s.bestChain.length difficultyRetargetWindow
    let recentHashes := s.bestChain.drop (s.bestChain.length - window)
    match recentHashes.head?.bind s.headers.lookup,recentHashes.getLast?.bind s.headers.lookup with
    | some firstHeader,some lastHeader =>
      let baseTarget := targetFromBits lastHeader.bits
      let ratio := retargetRatio firstHeader.timestamp lastHeader.timestamp window
      bitsFromTarget (F64.toU128 (adjustedTarget baseTarget ratio txCount))
    | _,_ => applyTxPressure defaultBits txCount

end Blockchain

end BlindEye
