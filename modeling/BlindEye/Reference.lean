import BlindEye.Library.Blake3
import BlindEye.Mining
import BlindEye.Blockchain

namespace BlindEye

def hexDigits (b : UInt8) : List Char :=
  let digit (n : Nat) : Char := if n < 10 then Char.ofNat (48 + n) else Char.ofNat (87 + n)
  [digit (b.toNat / 16),digit (b.toNat % 16)]

-- The compressed encoding of the generator of secp256k1.
def generatorKey : List UInt8 :=
  [0x02,0x79,0xBE,0x66,0x7E,0xF9,0xDC,0xBB,0xAC,0x55,0xA0,0x62,0x95,0xCE,0x87,0x0B,0x07,
    0x02,0x9B,0xFC,0xDB,0x2D,0xCE,0x28,0xD9,0x59,0xF2,0x81,0x5B,0x16,0xF8,0x17,0x98]

-- The crates on concrete inputs: BLAKE3 itself, lower-case hex, and a key
-- parser that knows the generator's key and no other.
def reference : Crates where
  blake3 input := ⟨Blake3.hash input,Blake3.hash_length input⟩
  PublicKey := Unit
  fromSlice bytes := if bytes = generatorKey then some () else none
  serialize _ := generatorKey
  hexEncode bytes := String.ofList (bytes.flatMap hexDigits)

abbrev genesisState : Blockchain := .new reference

def blockOn (parent : Digest) (height : UInt64) (transactions : List Transaction) : Block :=
  Block.withBits reference Protocol.genesisTimestamp parent transactions height Protocol.defaultBits

def minedBlock (parent : Digest) (height : UInt64) (transactions : List Transaction) (bits : UInt32)
    (nonce : UInt64) : Block :=
  let block := Block.withBits reference Protocol.genesisTimestamp parent transactions height bits
  { block with header := { block.header with nonce } }

-- The target is near 2^126, and nonce 1 meets it.
def hardBlock : Block := minedBlock genesisState.genesisHash 1 [createCoinbaseTransaction 1 100 [2]] 0x103fffff 1

def generatorAddress : List UInt8 := (addressFromScriptSig reference generatorKey).getD []

-- The owner of the generator's key earns a reward and pays it away.
def earnedCoinbase : Transaction := createCoinbaseTransaction 1 10000000000 generatorAddress
def earnedPayment : Transaction := .new [⟨⟨earnedCoinbase.txid reference,0⟩,generatorKey,0⟩] [⟨10000000000,[9]⟩]

def earnBlock : Block := blockOn genesisState.genesisHash 1 [earnedCoinbase]
def payBlock : Block := blockOn (earnBlock.hash reference) 2 [createCoinbaseTransaction 2 100 [2],earnedPayment]

-- A branch of two blocks beside `earnBlock` and the like.
def rivalBlock : Block := blockOn genesisState.genesisHash 1 [createCoinbaseTransaction 1 100 [2]]
def heirBlock : Block := blockOn (rivalBlock.hash reference) 2 [createCoinbaseTransaction 2 100 [3]]

end BlindEye
