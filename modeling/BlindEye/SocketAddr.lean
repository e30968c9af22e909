import Mathlib

namespace BlindEye

inductive IpAddr where
  | v4 (bits : BitVec 32)
  | v6 (bits : BitVec 128)
  deriving DecidableEq

def IpAddr.isUnspecified : IpAddr → Bool
  | .v4 bits => bits = 0
  | .v6 bits => bits = 0

inductive SocketAddr where
  | v4 (ip : BitVec 32) (port : UInt16)
  | v6 (ip : BitVec 128) (port : UInt16) (flowinfo scopeId : UInt32)
  deriving DecidableEq

-- The parsers of the standard library, over what is left of the text. A parser
-- that fails has consumed nothing.
namespace AddrParser

abbrev Reader (α : Type) := List Char → Option (α × List Char)

def toDigit (radix : Nat) (ch : Char) : Option Nat :=
  let value :=
    if '0' ≤ ch ∧ ch ≤ '9' then some (ch.toNat - '0'.toNat)
    else if 'a' ≤ ch ∧ ch ≤ 'z' then some (ch.toNat - 'a'.toNat + 10)
    else if 'A' ≤ ch ∧ ch ≤ 'Z' then some (ch.toNat - 'A'.toNat + 10)
    else none
  value.filter (· < radix)

def readGivenChar (wanted : Char) : List Char → Option (List Char)
  | [] => none
  | ch :: rest => if ch = wanted then some rest else none

-- `size` is the number of values of the integer type. A value that leaves the
-- type before the last digit is also too large in the end.
def readNumber (radix : Nat) (maxDigits : Option Nat) (allowZeroPrefix : Bool) (size : Nat) : Reader Nat := fun text =>
  let digits := text.takeWhile fun ch => (toDigit radix ch).isSome
  let value := (digits.filterMap (toDigit radix)).foldl (fun value digit => value * radix + digit) 0
  if digits = [] ∨ maxDigits.any (· < digits.length) ∨ size ≤ value then none
  else if ¬ allowZeroPrefix ∧ digits.head? = some '0' ∧ 1 < digits.length then none
  else some (value,text.drop digits.length)

def readIpv4Addr : Reader (BitVec 32) := fun text => do
  let (a,text) ← readNumber 10 (some 3) false 256 text
  let (b,text) ← readNumber 10 (some 3) false 256 (← readGivenChar '.' text)
  let (c,text) ← readNumber 10 (some 3) false 256 (← readGivenChar '.' text)
  let (d,text) ← readNumber 10 (some 3) false 256 (← readGivenChar '.' text)
  some (BitVec.ofNat 32 (((a * 256 + b) * 256 + c) * 256 + d),text)

-- At most `limit` groups, with whether the last two are an IPv4 address.
def readGroups : Nat → Bool → List Char → List Nat × Bool × List Char
  | 0,_,text => ([],false,text)
  | limit + 1,first,text =>
    let start := if first then some text else readGivenChar ':' text
    match if 0 < limit then start.bind readIpv4Addr else none with
    | some (ipv4,text) => ([ipv4.toNat / 2^16,ipv4.toNat % 2^16],true,text)
    | none =>
      match start.bind (readNumber 16 (some 4) true (2^16)) with
      | none => ([],false,text)
      | some (group,text) =>
        let (groups,ipv4,text) := readGroups limit false text
        (group :: groups,ipv4,text)

def fromGroups (groups : List Nat) : BitVec 128 :=
  BitVec.ofNat 128 (groups.foldl (fun value group => value * 2^16 + group) 0)

def readIpv6Addr : Reader (BitVec 128) := fun text =>
  let (head,headIpv4,text) := readGroups 8 true text
  if head.length = 8 then some (fromGroups head,text)
  else if headIpv4 then none
  else do
    let text ← readGivenChar ':' (← readGivenChar ':' text)
    let (tail,_,text) := readGroups (8 - (head.length + 1)) true text
    some (fromGroups (head ++ List.replicate (8 - head.length - tail.length) 0 ++ tail),text)

def readPort : Reader UInt16 := fun text => do
  let (port,text) ← readNumber 10 none true (2^16) (← readGivenChar ':' text)
  some (UInt16.ofNat port,text)

def readScopeId : Reader UInt32 := fun text => do
  let (scopeId,text) ← readNumber 10 none true (2^32) (← readGivenChar '%' text)
  some (UInt32.ofNat scopeId,text)

def readSocketAddrV4 : Reader SocketAddr := fun text => do
  let (ip,text) ← readIpv4Addr text
  let (port,text) ← readPort text
  some (.v4 ip port,text)

def readSocketAddrV6 : Reader SocketAddr := fun text => do
  let (ip,text) ← readIpv6Addr (← readGivenChar '[' text)
  let (scopeId,text) := (readScopeId text).getD (0,text)
  let (port,text) ← readPort (← readGivenChar ']' text)
  some (.v6 ip port 0 scopeId,text)

end AddrParser

-- The Display of the standard library.
namespace AddrDisplay

def ipv4Text (ip : BitVec 32) : List Char :=
  let octet := fun i => Nat.toDigits 10 (ip.toNat / 256^i % 256)
  octet 3 ++ '.' :: (octet 2 ++ '.' :: (octet 1 ++ '.' :: octet 0))

-- The lowest `count` groups of 16 bits, highest first.
def groupsOf : Nat → Nat → List Nat
  | 0,_ => []
  | count + 1,value => groupsOf count (value / 2^16) ++ [value % 2^16]

def segments (ip : BitVec 128) : List Nat := groupsOf 8 ip.toNat

structure Span where
  start : Nat
  len : Nat

-- The loop over the segments from position `i` on.
def longestZeros : List Nat → Nat → Span → Span → Span
  | [],_,longest,_ => longest
  | segment :: rest,i,longest,current =>
    if segment = 0 then
      let current : Span := ⟨if current.len = 0 then i else current.start,current.len + 1⟩
      longestZeros rest (i + 1) (if current.len > longest.len then current else longest) current
    else longestZeros rest (i + 1) longest ⟨0,0⟩

def colonGroups (groups : List Nat) : List Char := groups.flatMap fun group => ':' :: Nat.toDigits 16 group

-- `fmt_subslice`.
def joined : List Nat → List Char
  | [] => []
  | first :: tail => Nat.toDigits 16 first ++ colonGroups tail

def ipv6Text (ip : BitVec 128) : List Char :=
  let segments := segments ip
  if segments.take 6 = [0,0,0,0,0,0xffff] then
    ':' :: ':' :: 'f' :: 'f' :: 'f' :: 'f' :: ':' :: ipv4Text (BitVec.ofNat 32 ip.toNat)
  else
    let zeroes := longestZeros segments 0 ⟨0,0⟩ ⟨0,0⟩
    if zeroes.len > 1 then
      joined (segments.take zeroes.start) ++ ':' :: ':' :: joined (segments.drop (zeroes.start + zeroes.len))
    else joined segments

def portText (port : UInt16) : List Char := ':' :: Nat.toDigits 10 port.toNat

def scopeText (scopeId : UInt32) : List Char := if scopeId = 0 then [] else '%' :: Nat.toDigits 10 scopeId.toNat

end AddrDisplay

namespace SocketAddr

def parse (text : String) : Option SocketAddr :=
  match (AddrParser.readSocketAddrV4 text.toList).or (AddrParser.readSocketAddrV6 text.toList) with
  | some (addr,[]) => some addr
  | _ => none

-- The flow label is not written.
def text : SocketAddr → List Char
  | .v4 ip port => AddrDisplay.ipv4Text ip ++ AddrDisplay.portText port
  | .v6 ip port _ scopeId =>
    '[' :: (AddrDisplay.ipv6Text ip ++ AddrDisplay.scopeText scopeId ++ ']' :: AddrDisplay.portText port)

def toString (addr : SocketAddr) : String := String.ofList addr.text

def ip : SocketAddr → IpAddr
  | .v4 ip _ => .v4 ip
  | .v6 ip _ _ _ => .v6 ip

def port : SocketAddr → UInt16
  | .v4 _ port => port
  | .v6 _ port _ _ => port

def setIp (addr : SocketAddr) (ip : IpAddr) : SocketAddr :=
  match addr,ip with
  | .v6 _ port flowinfo scopeId,.v6 ip => .v6 ip port flowinfo scopeId
  | addr,.v4 ip => .v4 ip addr.port
  | addr,.v6 ip => .v6 ip addr.port 0 0

example : parse "127.0.0.1:30303" = some (.v4 0x7f000001 30303) := by decide +kernel
example : parse "[fe80::1%3]:80" = some (.v6 0xfe800000000000000000000000000001 80 0 3) := by decide +kernel
example : parse "127.0.0.01:1" = none := by decide +kernel
example : (SocketAddr.v6 0xfe800000000000000000000000000001 80 7 3).toString = "[fe80::1%3]:80" := by decide +kernel
example : (SocketAddr.v6 0xffffcb007109 80 0 0).toString = "[::ffff:203.0.113.9]:80" := by decide +kernel

end SocketAddr

end BlindEye
