import BlindEye.Blockchain

namespace BlindEye

inductive WalletTransactionDirection where
  | incoming
  | outgoing
  | miningReward
  | selfTransfer
  deriving DecidableEq

structure WalletTransactionRecord where
  transaction : Transaction
  txid : Digest
  height : UInt64
  timestamp : UInt64
  direction : WalletTransactionDirection
  amount : UInt64
  fee : UInt64
  counterparty : Option String
  deriving DecidableEq

def displayScriptPubkey (c : Crates) (scriptPubkey : List UInt8) : String :=
  (String.fromUTF8? ⟨scriptPubkey.toArray⟩).getD ("hex:" ++ c.hexEncode scriptPubkey)

def sumValues (outputs : List TxOutput) : UInt64 := (outputs.map TxOutput.value).sum

namespace Blockchain

def calculateTransactionFee (c : Crates) (s : Blockchain) (tx : Transaction) : Except String UInt64 :=
  validateTransactionAgainstUtxoSet c tx s.utxoSet

def validateTransaction (c : Crates) (s : Blockchain) (tx : Transaction) : Answer :=
  if tx.inputs.isEmpty then .error "Non-coinbase transactions must have at least one input"
  else (validateTransactionAgainstUtxoSet c tx s.utxoSet).map fun _ => ()

-- The wrapping u64 sum over the entries is the exact sum reduced modulo 2^64.
def getBalance (s : Blockchain) (scriptPubkey : List UInt8) : UInt64 :=
  UInt64.ofNat (FiniteMap.total (fun utxo : Utxo =>
    if utxo.output.scriptPubkey = scriptPubkey then utxo.output.value.toNat else 0) s.utxoSet)

def spendOrder (left right : OutPoint × Utxo) : Ordering :=
  (compare left.2.blockHeight right.2.blockHeight).then <|
    (compare left.1.txid.bytes right.1.txid.bytes).then (compare left.1.vout right.1.vout)

-- An order in which the hash map may yield its entries.
abbrev Lists (s : Blockchain) (listing : List (OutPoint × Utxo)) : Prop := FiniteMap.Lists s.utxoSet listing

-- `listing` is the order in which the hash map yields its entries.
def getSpendableUtxos (listing : List (OutPoint × Utxo)) (scriptPubkey : List UInt8) : List (OutPoint × Utxo) :=
  (listing.filter fun entry => decide (entry.2.output.scriptPubkey = scriptPubkey)).insertionSort
    fun left right => (spendOrder left right).isLE

abbrev KnownOutputs := HashMap Digest (List TxOutput)

def KnownOutputs.find (known : KnownOutputs) (outpoint : OutPoint) : Option TxOutput :=
  (known.lookup outpoint.txid).bind fun outputs => outputs[outpoint.vout.toNat]?

-- The loop body of `wallet_transaction_history`.
def recordTransaction (c : Crates) (scriptPubkey : List UInt8) (header : BlockHeader)
    (state : KnownOutputs × List WalletTransactionRecord) (transaction : Transaction) :
    KnownOutputs × List WalletTransactionRecord :=
  let txid := transaction.txid c
  let mine (output : TxOutput) : Bool := decide (output.scriptPubkey = scriptPubkey)
  let incomingAmount := sumValues (transaction.outputs.filter mine)
  let ownedInputAmount := sumValues
    ((transaction.inputs.filterMap fun input => state.1.find input.previousOutput).filter mine)
  let knownOutputs : KnownOutputs := state.1.insert txid transaction.outputs
  if incomingAmount = 0 ∧ ownedInputAmount = 0 then (knownOutputs,state.2)
  else
    let external := transaction.outputs.filter fun output => !mine output
    let firstExternalOutput := external.head?.map fun output => displayScriptPubkey c output.scriptPubkey
    let firstInputAddress := (transaction.inputs.findSome? fun input => addressFromScriptSig c input.scriptSig).map
      (displayScriptPubkey c)
    let externalSendAmount := sumValues external
    let fee := saturate (ownedInputAmount.toNat - transaction.totalOutputValue.toNat)
    let (direction,amount,counterparty) : WalletTransactionDirection × UInt64 × Option String :=
      if transaction.inputs.isEmpty then (.miningReward,incomingAmount,none)
      else if ownedInputAmount > 0 then
        if externalSendAmount = 0 then (.selfTransfer,incomingAmount,some "Self")
        else (.outgoing,externalSendAmount,firstExternalOutput)
      else (.incoming,incomingAmount,firstInputAddress)
    (knownOutputs,state.2 ++ [⟨transaction,txid,header.height,header.timestamp,direction,amount,fee,counterparty⟩])

def recordBlock (c : Crates) (s : Blockchain) (scriptPubkey : List UInt8)
    (state : KnownOutputs × List WalletTransactionRecord) (hash : Digest) :
    KnownOutputs × List WalletTransactionRecord :=
  match s.getBlock hash with
  | none => state
  | some block => block.transactions.foldl (recordTransaction c scriptPubkey block.header) state

def walletTransactionHistory (c : Crates) (s : Blockchain) (scriptPubkey : List UInt8) :
    List WalletTransactionRecord :=
  (s.bestChain.foldl (s.recordBlock c scriptPubkey) (∅,[])).2.reverse

end Blockchain

end BlindEye
