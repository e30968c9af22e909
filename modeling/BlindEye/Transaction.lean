import BlindEye.Primitives

namespace BlindEye

structure OutPoint where
  txid : Digest
  vout : UInt32
  deriving DecidableEq

structure TxInput where
  previousOutput : OutPoint
  scriptSig : List UInt8
  sequence : UInt32
  deriving DecidableEq

structure TxOutput where
  value : UInt64
  scriptPubkey : List UInt8
  deriving DecidableEq

structure Transaction where
  version : UInt32
  inputs : List TxInput
  outputs : List TxOutput
  lockTime : UInt64
  deriving DecidableEq

def TxInput.serialize (input : TxInput) : List UInt8 :=
  input.previousOutput.txid.bytes ++ u32Bytes input.previousOutput.vout ++
    u32Bytes (UInt32.ofNat input.scriptSig.length) ++ input.scriptSig ++ u32Bytes input.sequence

def TxOutput.serialize (output : TxOutput) : List UInt8 :=
  u64Bytes output.value ++ u32Bytes (UInt32.ofNat output.scriptPubkey.length) ++ output.scriptPubkey

namespace Transaction

def new (inputs : List TxInput) (outputs : List TxOutput) : Transaction := ⟨1,inputs,outputs,0⟩

def serialize (tx : Transaction) : List UInt8 :=
  u32Bytes tx.version ++ u32Bytes (UInt32.ofNat tx.inputs.length) ++ tx.inputs.flatMap TxInput.serialize ++
    u32Bytes (UInt32.ofNat tx.outputs.length) ++ tx.outputs.flatMap TxOutput.serialize ++ u64Bytes tx.lockTime

def txid (c : Crates) (tx : Transaction) : Digest := c.blake3 tx.serialize

def spends (tx : Transaction) : List OutPoint := tx.inputs.map TxInput.previousOutput

-- The loop over `seen_inputs` fails at the first outpoint it meets twice.
def validate (tx : Transaction) : Answer :=
  if tx.outputs.isEmpty then .error "Transaction must have at least one output"
  else if ¬ tx.spends.Nodup then .error "Duplicate transaction inputs"
  else if tx.outputs.any (fun output => output.value == 0) then
    .error "Transaction output value cannot be zero"
  else .ok ()

-- `sum` wraps modulo 2^64, as u64 iterator sums do in a release build.
def totalOutputValue (tx : Transaction) : UInt64 := (tx.outputs.map TxOutput.value).sum

theorem validate_exact (tx : Transaction) : tx.validate = .ok () ↔
    tx.outputs ≠ [] ∧ tx.spends.Nodup ∧ ∀ output ∈ tx.outputs, output.value ≠ 0 := by
  unfold validate
  split
  · rename_i empty
    simp only [List.isEmpty_iff] at empty
    simp [empty]
  · rename_i nonempty
    split
    · rename_i repeated; simp [repeated]
    · rename_i distinct
      split
      · rename_i zero
        simp only [List.any_eq_true,beq_iff_eq] at zero
        obtain ⟨output,member,isZero⟩ := zero
        simp only [reduceCtorEq,false_iff]
        rintro ⟨_,_,positive⟩
        exact positive output member isZero
      · rename_i positive
        simp only [List.isEmpty_iff] at nonempty
        simp only [List.any_eq_true,beq_iff_eq,not_exists,not_and] at positive
        simpa [nonempty] using ⟨by simpa using distinct,positive⟩

end Transaction

def addressFromPublicKey (c : Crates) (publicKey : c.PublicKey) : String :=
  "BEC" ++ c.hexEncode ((c.blake3 (c.serialize publicKey)).bytes.take 20)

def addressFromScriptSig (c : Crates) (scriptSig : List UInt8) : Option (List UInt8) :=
  (c.fromSlice scriptSig).map fun publicKey => (addressFromPublicKey c publicKey).toUTF8.data.toList

end BlindEye
