import BlindEye.Library.Fallible
import BlindEye.Primitives

namespace BlindEye.Protocol

def coin : UInt64 := 100000000
def defaultBlockTimeSeconds : UInt64 := 1
def initialRewardUnits : UInt64 := 100 * coin
def maxSupplyCoins : UInt64 := 420480000
def maxSupplyUnits : UInt64 := maxSupplyCoins * coin
def halvingIntervalBlocks : UInt64 := maxSupplyUnits / (2 * initialRewardUnits)
def defaultBits : UInt32 := 0x1f00ffff
def difficultyRetargetWindow : Nat := 30
def genesisTimestamp : UInt64 := 1777200000

structure EmissionSchedule where
  maximumSupply : UInt64
  halvingInterval : UInt64
  initialReward : UInt64
  maxHalvings : UInt32
  finalRewardBlock : UInt64
  totalSubsidyBlocks : UInt64
  deriving DecidableEq

def saturatingMul (x y : UInt64) : UInt64 :=
  if x.toNat * y.toNat < 2^64 then x * y else UInt64.ofNat (2^64 - 1)

namespace EmissionSchedule

def new (maximumSupply halvingInterval initialReward : UInt64) (maxHalvings : UInt32) : EmissionSchedule :=
  let finalRewardBlock := saturatingMul halvingInterval maxHalvings.toUInt64
  ⟨maximumSupply,halvingInterval,initialReward,maxHalvings,finalRewardBlock,finalRewardBlock⟩

def blockReward (schedule : EmissionSchedule) (height : UInt64) : UInt64 :=
  let halvingCount := height / schedule.halvingInterval
  if halvingCount ≥ schedule.maxHalvings.toUInt64 then 0
  else schedule.initialReward >>> halvingCount

def default : EmissionSchedule := new maxSupplyUnits halvingIntervalBlocks initialRewardUnits 34

-- The sums and products of the loop, `none` where they overflow.
def add128 (x y : U128) : Option U128 := if x.toNat + y.toNat < 2^128 then some (x + y) else none
def mul128 (x y : U128) : Option U128 := if x.toNat * y.toNat < 2^128 then some (x * y) else none

def issuedLoop (schedule : EmissionSchedule) (total : U128) (remainingBlocks : UInt64) (reward : U128)
    (halvingCount : UInt32) : Option U128 :=
  if _more : remainingBlocks > 0 ∧ halvingCount < schedule.maxHalvings then
    let epochBlocks := min schedule.halvingInterval remainingBlocks
    match mul128 reward (epochBlocks.toBitVec.setWidth 128) with
    | none => none
    | some amount =>
      match add128 total amount with
      | none => none
      | some total =>
        if reward >>> 1 = 0 then some total
        else issuedLoop schedule total (remainingBlocks - epochBlocks) (reward >>> 1) (halvingCount + 1)
  else some total
termination_by schedule.maxHalvings.toNat - halvingCount.toNat
decreasing_by
  have below := UInt32.lt_iff_toNat_lt.mp _more.2
  have bound := schedule.maxHalvings.toNat_lt
  rw [UInt32.toNat_add]
  change _ - (halvingCount.toNat + 1) % 2^32 < _
  omega

def issuedThrough (schedule : EmissionSchedule) (height : UInt64) : Option U128 :=
  match checkedAdd height 1 with
  | none => none
  | some remainingBlocks => issuedLoop schedule 0 remainingBlocks (schedule.initialReward.toBitVec.setWidth 128) 0

end EmissionSchedule

-- Whole coins, and the eight decimals without their trailing zeros.
def formatBecAmount (amount : UInt64) : String :=
  let whole := Nat.toDigits 10 (amount / coin).toNat
  let fraction := Nat.toDigits 10 (amount % coin).toNat
  if amount % coin = 0 then String.ofList whole
  else
    let frac := List.replicate (8 - fraction.length) '0' ++ fraction
    String.ofList (whole ++ '.' :: frac.rdropWhile (· == '0'))

def parseFraction : Option (List Char) → Except String UInt64
  | none => .ok 0
  | some part =>
    if (String.ofList part).utf8ByteSize > 8 then .error "BEC supports at most 8 decimal places"
    else if ¬ part.all Char.isDigit then .error "Invalid fractional BEC amount"
    else Fallible.okOr "Invalid fractional BEC amount" (parseU64 (part ++ List.replicate (8 - part.length) '0'))

def parseBecAmount (input : String) : Except String UInt64 :=
  let trimmed := strTrim input.toList
  if trimmed = [] then .error "Amount cannot be empty"
  else if trimmed.head? = some '-' then .error "Amount cannot be negative"
  else
    let parts := trimmed.splitOn '.'
    let wholePart := parts[0]?.getD []
    if parts[2]?.isSome then .error "Amount has too many decimal points"
    else do
      let whole ← Fallible.okOr "Invalid whole BEC amount" (if wholePart = [] then some 0 else parseU64 wholePart)
      let wholeUnits ← Fallible.okOr "Amount exceeds supported range" (checkedMul whole coin)
      let fractionalUnits ← parseFraction parts[1]?
      Fallible.okOr "Amount exceeds supported range" (checkedAdd wholeUnits fractionalUnits)

end BlindEye.Protocol
