import BlindEye.Library.Fallible
import BlindEye.Library.FiniteMap
import BlindEye.Block

namespace BlindEye

structure Utxo where
  output : TxOutput
  blockHeight : UInt64
  isCoinbase : Bool
  deriving DecidableEq

abbrev UtxoSet := HashMap OutPoint Utxo

def UtxoSet.addInputValue (c : Crates) (utxoSet : UtxoSet) (total : UInt64) (input : TxInput) :
    Except String UInt64 :=
  match utxoSet.lookup input.previousOutput with
  | none => .error "Input UTXO not found or already spent"
  | some utxo =>
    match addressFromScriptSig c input.scriptSig with
    | none => .error "Transparent input must provide a valid public key in script_sig"
    | some claimedOwner =>
      if claimedOwner ≠ utxo.output.scriptPubkey then
        .error "Input does not authorize spending the referenced output"
      else
        match checkedAdd total utxo.output.value with
        | none => .error "Transaction input value overflow"
        | some total => .ok total

-- The answer is the fee. The subtraction cannot underflow behind its check.
def validateTransactionAgainstUtxoSet (c : Crates) (tx : Transaction) (utxoSet : UtxoSet) :
    Except String UInt64 := do
  tx.validate
  let totalInputValue ← tx.inputs.foldlM (utxoSet.addInputValue c) 0
  if tx.totalOutputValue > totalInputValue then .error "Transaction outputs exceed inputs"
  else .ok (totalInputValue - tx.totalOutputValue)

-- `vout as u32` keeps the low 32 bits of the index.
def Transaction.created (c : Crates) (tx : Transaction) (height : UInt64) : List (OutPoint × Utxo) :=
  tx.outputs.zipIdx.map fun (output,vout) =>
    (⟨tx.txid c,UInt32.ofNat vout⟩,⟨output,height,tx.inputs.isEmpty⟩)

def applyTransaction (c : Crates) (tx : Transaction) (utxoSet : UtxoSet) (height : UInt64) : UtxoSet :=
  FiniteMap.insertAll (FiniteMap.eraseAll utxoSet tx.spends) (tx.created c height)

-- The loop body of `apply_block_to_utxo_set` at index 0, and at every later one.
def applyCoinbase (c : Crates) (height : UInt64) (tx : Transaction) (utxoSet : UtxoSet) :
    Except String UtxoSet :=
  if ¬ tx.inputs.isEmpty then .error "First transaction in block must be coinbase"
  else if height ≠ 0 ∨ tx.outputs.any (fun output => output.value != 0) then do
    tx.validate
    return applyTransaction c tx utxoSet height
  else .ok (applyTransaction c tx utxoSet height)

def applyPayment (c : Crates) (height : UInt64) (state : UtxoSet × UInt64) (tx : Transaction) :
    Except String (UtxoSet × UInt64) :=
  if tx.inputs.isEmpty then .error "Only the first transaction in a block may be coinbase"
  else do
    let fee ← validateTransactionAgainstUtxoSet c tx state.1
    match checkedAdd state.2 fee with
    | none => .error "Transaction fee overflow"
    | some fees => .ok (applyTransaction c tx state.1 height,fees)

def validateBlockReward (height : UInt64) (coinbase : Transaction) (fees : UInt64) : Answer :=
  match checkedAdd (Protocol.EmissionSchedule.default.blockReward height) fees with
  | none => .error "Coinbase reward overflow"
  | some allowedReward =>
    if coinbase.totalOutputValue > allowedReward then
      .error "Coinbase reward exceeds allowed subsidy and fees"
    else .ok ()

def applyBlockToUtxoSet (c : Crates) (block : Block) (utxoSet : UtxoSet) : Except String UtxoSet :=
  match block.transactions with
  | [] => .error "Block must contain at least one transaction"
  | coinbase :: payments => do
    let utxoSet ← applyCoinbase c block.header.height coinbase utxoSet
    let (utxoSet,fees) ← payments.foldlM (applyPayment c block.header.height) (utxoSet,0)
    validateBlockReward block.header.height coinbase fees
    return utxoSet

end BlindEye
