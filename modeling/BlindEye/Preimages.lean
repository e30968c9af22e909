import BlindEye.BincodeFormat

-- The byte strings that are hashed, as formats of their own. A length takes four
-- bytes here, and eight in messages.
namespace BlindEye.Preimages
open Codec
open BincodeFormat (u8 u32 u64 u8_fits u32_fits u64_fits)

def script : Codec (List UInt8) := counted 4 u8

theorem txInput_read : ∀ input : TxInput,
    some (TxInput.mk input.previousOutput input.scriptSig input.sequence) = some input := fun _ => rfl

theorem txInput_fields : ∀ (fields : OutPoint × List UInt8 × UInt32) (input : TxInput),
    some (TxInput.mk fields.1 fields.2.1 fields.2.2) = some input →
      (input.previousOutput,input.scriptSig,input.sequence) = fields := by
  intro fields input read
  cases read
  rfl

def txInput : Codec TxInput := (pair BincodeFormat.outPoint (pair script u32)).refine
  (fun fields => some ⟨fields.1,fields.2.1,fields.2.2⟩)
  (fun input => (input.previousOutput,input.scriptSig,input.sequence)) txInput_read txInput_fields

theorem txOutput_read : ∀ output : TxOutput, some (TxOutput.mk output.value output.scriptPubkey) = some output :=
  fun _ => rfl

theorem txOutput_fields : ∀ (fields : UInt64 × List UInt8) (output : TxOutput),
    some (TxOutput.mk fields.1 fields.2) = some output → (output.value,output.scriptPubkey) = fields := by
  intro fields output read
  cases read
  rfl

def txOutput : Codec TxOutput := (pair u64 script).refine (fun fields => some ⟨fields.1,fields.2⟩)
  (fun output => (output.value,output.scriptPubkey)) txOutput_read txOutput_fields

theorem transaction_read : ∀ tx : Transaction,
    some (Transaction.mk tx.version tx.inputs tx.outputs tx.lockTime) = some tx := fun _ => rfl

theorem transaction_fields : ∀ (fields : UInt32 × List TxInput × List TxOutput × UInt64) (tx : Transaction),
    some (Transaction.mk fields.1 fields.2.1 fields.2.2.1 fields.2.2.2) = some tx →
      (tx.version,tx.inputs,tx.outputs,tx.lockTime) = fields := by
  intro fields tx read
  cases read
  rfl

def transaction : Codec Transaction := (pair u32 (pair (counted 4 txInput) (pair (counted 4 txOutput) u64))).refine
  (fun fields => some ⟨fields.1,fields.2.1,fields.2.2.1,fields.2.2.2⟩)
  (fun tx => (tx.version,tx.inputs,tx.outputs,tx.lockTime)) transaction_read transaction_fields

variable {input : TxInput} {output : TxOutput} {tx other : Transaction}

theorem length_bytes {n : Nat} (short : n < 2^32) : u32Bytes (UInt32.ofNat n) = (number 4).write n := by
  rw [u32Bytes,UInt32.toNat_ofNat_of_lt' short]
  rfl

theorem u8_write (x : UInt8) : u8.write x = [x] := by
  simp [BincodeFormat.u8,refine,number,LittleEndian.toBytes]

theorem u8_writes (bytes : List UInt8) : bytes.flatMap u8.write = bytes := by
  induction bytes with
  | nil => rfl
  | cons byte rest ih => simp [u8_write,ih]

theorem script_write {bytes : List UInt8} (short : bytes.length < 2^32) :
    script.write bytes = u32Bytes (UInt32.ofNat bytes.length) ++ bytes := by
  rw [length_bytes short]
  simp [script,counted,u8_writes]

theorem script_fits {bytes : List UInt8} (short : bytes.length < 2^32) : script.Fits bytes := by
  refine ⟨?_,fun byte _ => u8_fits byte⟩
  omega

theorem txInput_serialize (short : input.scriptSig.length < 2^32) : input.serialize = txInput.write input := by
  have signed := script_write short
  simp [TxInput.serialize,txInput,BincodeFormat.outPoint,BincodeFormat.digest,BincodeFormat.u32,refine,pair,fixed,
    signed,u32Bytes,number]

theorem txOutput_serialize (short : output.scriptPubkey.length < 2^32) : output.serialize = txOutput.write output := by
  have locked := script_write short
  simp [TxOutput.serialize,txOutput,BincodeFormat.u64,refine,pair,locked,u64Bytes,number]

-- All lists of the transaction have lengths that the four bytes hold.
structure Short (tx : Transaction) : Prop where
  inputs : tx.inputs.length < 2^32
  outputs : tx.outputs.length < 2^32
  scriptSigs : ∀ input ∈ tx.inputs, input.scriptSig.length < 2^32
  scripts : ∀ output ∈ tx.outputs, output.scriptPubkey.length < 2^32

theorem transaction_serialize (short : Short tx) : tx.serialize = transaction.write tx := by
  have inputs : tx.inputs.flatMap TxInput.serialize = tx.inputs.flatMap txInput.write :=
    List.flatMap_congr fun input member => txInput_serialize (short.scriptSigs input member)
  have outputs : tx.outputs.flatMap TxOutput.serialize = tx.outputs.flatMap txOutput.write :=
    List.flatMap_congr fun output member => txOutput_serialize (short.scripts output member)
  rw [Transaction.serialize,length_bytes short.inputs,length_bytes short.outputs,inputs,outputs]
  simp [transaction,refine,pair,counted,BincodeFormat.u32,BincodeFormat.u64,u32Bytes,u64Bytes,number]

theorem transaction_fits (short : Short tx) : transaction.Fits tx := by
  have inputs := short.inputs
  have outputs := short.outputs
  refine ⟨u32_fits _,⟨by omega,?_⟩,⟨by omega,?_⟩,u64_fits _⟩
  · intro input member
    exact ⟨⟨trivial,u32_fits _⟩,script_fits (short.scriptSigs input member),u32_fits _⟩
  · intro output member
    exact ⟨u64_fits _,script_fits (short.scripts output member)⟩

theorem header_serialize (header : BlockHeader) : header.serialize = BincodeFormat.blockHeader.write header := by
  simp [BlockHeader.serialize,BincodeFormat.blockHeader,BincodeFormat.digest,BincodeFormat.u32,BincodeFormat.u64,refine,
    pair,fixed,number,u32Bytes,u64Bytes]

theorem header_fits (header : BlockHeader) : BincodeFormat.blockHeader.Fits header :=
  ⟨trivial,trivial,u64_fits _,u32_fits _,u64_fits _,u64_fits _⟩

theorem preimages_exact : (∀ tx other, Short tx → Short other → (tx.serialize = other.serialize ↔ tx = other)) ∧
    ∀ header other : BlockHeader, header.serialize = other.serialize ↔ header = other := by
  constructor
  · intro tx other one two
    rw [transaction_serialize one,transaction_serialize two]
    exact transaction.write_exact (transaction_fits one) (transaction_fits two)
  · intro header other
    rw [header_serialize,header_serialize]
    exact BincodeFormat.blockHeader.write_exact (header_fits header) (header_fits other)

-- One output with a script of two bytes, and two outputs with a byte each.
theorem preimages_exact_split : ∃ tx other : Transaction, Short tx ∧ Short other ∧ tx.serialize ≠ other.serialize := by
  have one : Short (.new [] [⟨1,[2,3]⟩]) := ⟨by decide,by decide,by decide,by decide⟩
  have two : Short (.new [] [⟨1,[2]⟩,⟨1,[3]⟩]) := ⟨by decide,by decide,by decide,by decide⟩
  refine ⟨_,_,one,two,fun equal => ?_⟩
  exact absurd ((preimages_exact.1 _ _ one two).mp equal) (by decide)

end BlindEye.Preimages
