import BlindEye.Library.Codec
import BlindEye.P2p

-- The format of bincode with fixed-width little-endian integers: lengths in
-- eight bytes, variants in four, and the fields of a struct one after the other.
namespace BlindEye.BincodeFormat
open Codec

def unit : Codec Unit := (fixed 0).refine (fun _ => some ()) (fun _ => ⟨[],rfl⟩) (fun _ => rfl)
  (fun value _ _ => Subtype.ext (List.length_eq_zero_iff.mp value.property).symm)

def u8 : Codec UInt8 := (number 1).refine (fun n => if n < 2^8 then some (.ofNat n) else none) UInt8.toNat
  (fun x => by simp [x.toNat_lt])
  (fun n x read => by
    split at read
    · rename_i small
      cases read
      exact UInt8.toNat_ofNat_of_lt' small
    · cases read)

def u32 : Codec UInt32 := (number 4).refine (fun n => if n < 2^32 then some (.ofNat n) else none) UInt32.toNat
  (fun x => by simp [x.toNat_lt])
  (fun n x read => by
    split at read
    · rename_i small
      cases read
      exact UInt32.toNat_ofNat_of_lt' small
    · cases read)

def u64 : Codec UInt64 := (number 8).refine (fun n => if n < 2^64 then some (.ofNat n) else none) UInt64.toNat
  (fun x => by simp [x.toNat_lt])
  (fun n x read => by
    split at read
    · rename_i small
      cases read
      exact UInt64.toNat_ofNat_of_lt' small
    · cases read)

def bytes : Codec (List UInt8) := many u8

def digest : Codec Digest := (fixed 32).refine (fun value => some ⟨value.val,value.property⟩)
  (fun digest => ⟨digest.bytes,digest.size⟩) (fun _ => rfl) (fun _ _ read => by cases read; rfl)

def string : Codec String := bytes.refine (fun bytes => String.fromUTF8? ⟨bytes.toArray⟩) utf8Bytes
  (fun _ => utf8Bytes_text) (fun _ _ read => text_utf8Bytes read)

def outPoint : Codec OutPoint := (pair digest u32).refine (fun fields => some ⟨fields.1,fields.2⟩)
  (fun outpoint => (outpoint.txid,outpoint.vout)) (fun _ => rfl) (fun _ _ read => by cases read; rfl)

def txInput : Codec TxInput := (pair outPoint (pair bytes u32)).refine
  (fun fields => some ⟨fields.1,fields.2.1,fields.2.2⟩)
  (fun input => (input.previousOutput,input.scriptSig,input.sequence))
  (fun _ => rfl) (fun _ _ read => by cases read; rfl)

def txOutput : Codec TxOutput := (pair u64 bytes).refine (fun fields => some ⟨fields.1,fields.2⟩)
  (fun output => (output.value,output.scriptPubkey)) (fun _ => rfl) (fun _ _ read => by cases read; rfl)

def transaction : Codec Transaction := (pair u32 (pair (many txInput) (pair (many txOutput) u64))).refine
  (fun fields => some ⟨fields.1,fields.2.1,fields.2.2.1,fields.2.2.2⟩)
  (fun tx => (tx.version,tx.inputs,tx.outputs,tx.lockTime))
  (fun _ => rfl) (fun _ _ read => by cases read; rfl)

def blockHeader : Codec BlockHeader := (pair digest (pair digest (pair u64 (pair u32 (pair u64 u64))))).refine
  (fun fields => some ⟨fields.1,fields.2.1,fields.2.2.1,fields.2.2.2.1,fields.2.2.2.2.1,fields.2.2.2.2.2⟩)
  (fun header =>
    (header.previousBlockHash,header.merkleRoot,header.timestamp,header.bits,header.nonce,header.height))
  (fun _ => rfl) (fun _ _ read => by cases read; rfl)

def block : Codec Block := (pair blockHeader (many transaction)).refine (fun fields => some ⟨fields.1,fields.2⟩)
  (fun block => (block.header,block.transactions)) (fun _ => rfl) (fun _ _ read => by cases read; rfl)

def Payload : Fin 9 → Type
  | 0 => UInt32 × UInt64 × UInt64 × String
  | 1 => Unit
  | 2 => List String
  | 3 => List Digest
  | 4 => Block
  | 5 => Transaction
  | 6 => UInt64 × UInt32
  | 7 => UInt64
  | 8 => UInt64

def payload : ∀ i, Codec (Payload i)
  | 0 => pair u32 (pair u64 (pair u64 string))
  | 1 => unit
  | 2 => many string
  | 3 => many digest
  | 4 => block
  | 5 => transaction
  | 6 => pair u64 u32
  | 7 => u64
  | 8 => u64

def ofPayload : Sigma Payload → PeerMessage
  | ⟨0,fields⟩ => .handshake fields.1 fields.2.1 fields.2.2.1 fields.2.2.2
  | ⟨1,_⟩ => .getPeers
  | ⟨2,addresses⟩ => .peers addresses
  | ⟨3,hashes⟩ => .getBlocks hashes
  | ⟨4,block⟩ => .block block
  | ⟨5,transaction⟩ => .transaction transaction
  | ⟨6,fields⟩ => .getHeaders fields.1 fields.2
  | ⟨7,nonce⟩ => .ping nonce
  | ⟨8,nonce⟩ => .pong nonce

def toPayload : PeerMessage → Sigma Payload
  | .handshake version bestHeight timestamp listenAddr => ⟨0,(version,bestHeight,timestamp,listenAddr)⟩
  | .getPeers => ⟨1,()⟩
  | .peers addresses => ⟨2,addresses⟩
  | .getBlocks hashes => ⟨3,hashes⟩
  | .block block => ⟨4,block⟩
  | .transaction transaction => ⟨5,transaction⟩
  | .getHeaders fromHeight count => ⟨6,(fromHeight,count)⟩
  | .ping nonce => ⟨7,nonce⟩
  | .pong nonce => ⟨8,nonce⟩

theorem ofPayload_toPayload (msg : PeerMessage) : ofPayload (toPayload msg) = msg := by
  cases msg <;> rfl

theorem toPayload_ofPayload (value : Sigma Payload) : toPayload (ofPayload value) = value := by
  obtain ⟨i,fields⟩ := value
  match i,fields with
  | 0,_ | 1,_ | 2,_ | 3,_ | 4,_ | 5,_ | 6,_ | 7,_ | 8,_ => rfl

def peerMessage : Codec PeerMessage := (variants (by decide) payload).refine (fun value => some (ofPayload value))
  toPayload (fun msg => congrArg some (ofPayload_toPayload msg))
  (fun value _ read => by cases read; exact toPayload_ofPayload value)

@[simp] theorem u8_length (x : UInt8) : (u8.write x).length = 1 := number_length 1 _
@[simp] theorem u32_length (x : UInt32) : (u32.write x).length = 4 := number_length 4 _
@[simp] theorem u64_length (x : UInt64) : (u64.write x).length = 8 := number_length 8 _
@[simp] theorem digest_length (x : Digest) : (digest.write x).length = 32 := x.size
@[simp] theorem bytes_length (value : List UInt8) : (bytes.write value).length = 8 + value.length := by simp [bytes]

@[simp] theorem header_length (header : BlockHeader) : (blockHeader.write header).length = 92 := by simp [blockHeader]

@[simp] theorem txOutput_length (output : TxOutput) :
    (txOutput.write output).length = 16 + output.scriptPubkey.length := by
  simp [txOutput]
  omega

theorem blockMessage_length (value : Block) :
    (peerMessage.write (.block value)).length = 4 + (block.write value).length :=
  variants_length (by decide) payload ⟨4,value⟩

theorem u8_fits (x : UInt8) : u8.Fits x := x.toNat_lt
theorem u32_fits (x : UInt32) : u32.Fits x := x.toNat_lt
theorem u64_fits (x : UInt64) : u64.Fits x := x.toNat_lt

theorem bytes_fits {value : List UInt8} (short : value.length < 2^64) : bytes.Fits value :=
  ⟨short,fun byte _ => u8_fits byte⟩

-- All lists of the transaction have lengths that a usize holds.
structure Addressable (tx : Transaction) : Prop where
  inputs : tx.inputs.length < 2^64
  outputs : tx.outputs.length < 2^64
  scriptSigs : ∀ input ∈ tx.inputs, input.scriptSig.length < 2^64
  scripts : ∀ output ∈ tx.outputs, output.scriptPubkey.length < 2^64

theorem transaction_fits {tx : Transaction} (addressable : Addressable tx) : transaction.Fits tx := by
  refine ⟨u32_fits _,⟨addressable.inputs,?_⟩,⟨addressable.outputs,?_⟩,u64_fits _⟩
  · intro input member
    exact ⟨⟨trivial,u32_fits _⟩,bytes_fits (addressable.scriptSigs input member),u32_fits _⟩
  · intro output member
    exact ⟨u64_fits _,bytes_fits (addressable.scripts output member)⟩

theorem block_fits {value : Block} (few : value.transactions.length < 2^64)
    (each : ∀ tx ∈ value.transactions, Addressable tx) : block.Fits value := by
  refine ⟨⟨trivial,trivial,u64_fits _,u32_fits _,u64_fits _,u64_fits _⟩,few,?_⟩
  exact fun tx member => transaction_fits (each tx member)

-- bincode on these messages. Bytes behind the value are not looked at.
def bincode : Bincode where
  serialize msg := .ok (peerMessage.write msg)
  deserialize bytes := match peerMessage.read bytes with
    | some (msg,_) => .ok msg
    | none => .error "io error: unexpected end of file"

end BlindEye.BincodeFormat
