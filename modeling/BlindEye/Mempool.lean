import BlindEye.Library.FiniteMap
import BlindEye.Protocol
import BlindEye.Transaction

namespace BlindEye

structure MempoolEntry where
  transaction : Transaction
  feePaid : UInt64
  feeRate : UInt64
  receivedAt : UInt64
  deriving DecidableEq

structure Mempool where
  transactions : HashMap Digest MempoolEntry
  maxSize : Nat
  minFeeRate : UInt64
  deriving DecidableEq

def congestionStepTransactions : Nat := 20
def instantConfirmationTargetSeconds : UInt64 := 0
def standardConfirmationTargetSeconds : UInt64 := 60

def divCeil (n size : Nat) : Nat := (n + size - 1) / size

-- The length of a `Vec` always fits a u64, so `as u64` loses nothing.
def Transaction.estimatedSize (tx : Transaction) : Nat := tx.serialize.length

namespace Mempool

def new (maxSize : Nat) (minFeeRate : UInt64) : Mempool := ⟨∅,maxSize,minFeeRate⟩

def size (pool : Mempool) : Nat := pool.transactions.keys.card

def containsTransaction (pool : Mempool) (txid : Digest) : Bool := decide (txid ∈ pool.transactions)

-- `now` is the reading of the system clock.
def addTransaction (c : Crates) (pool : Mempool) (transaction : Transaction) (feePaid now : UInt64) :
    Except String Mempool :=
  if pool.size ≥ pool.maxSize then .error "Mempool is full"
  else if pool.containsTransaction (transaction.txid c) then .error "Transaction is already in the mempool"
  else
    let size := max transaction.estimatedSize 1
    let feeRate := UInt64.ofNat (divCeil feePaid.toNat size)
    .ok { pool with transactions := pool.transactions.insert (transaction.txid c) ⟨transaction,feePaid,feeRate,now⟩ }

def standardFeeRate (pool : Mempool) : UInt64 :=
  saturate (pool.minFeeRate.toNat + divCeil pool.size congestionStepTransactions)

def instantFeeRate (pool : Mempool) : UInt64 :=
  let standard := pool.standardFeeRate
  saturate (standard.toNat + max (standard.toNat / 4) 1)

def minimumRequiredFee (pool : Mempool) (transaction : Transaction) : UInt64 :=
  saturate (max transaction.estimatedSize 1 * pool.standardFeeRate.toNat)

def hasConflictingInputs (pool : Mempool) (transaction : Transaction) : Bool :=
  pool.transactions.any fun _ existing => existing.transaction.inputs.any fun existingInput =>
    transaction.inputs.any fun candidate => candidate.previousOutput == existingInput.previousOutput

def reservedOutpoints (pool : Mempool) : Finset OutPoint :=
  (pool.transactions.entries.bind fun entry => (entry.2.transaction.spends : Multiset OutPoint)).toFinset

-- `sort_by` is stable, and so is this sort.
def blockOrder (c : Crates) (left right : MempoolEntry) : Ordering :=
  (compare right.feeRate left.feeRate).then <| (compare left.receivedAt right.receivedAt).then <|
    (compare right.feePaid left.feePaid).then <|
      compare (right.transaction.txid c).bytes (left.transaction.txid c).bytes

def eligible (pool : Mempool) (now : UInt64) (entry : MempoolEntry) : Bool :=
  if entry.feeRate ≥ pool.instantFeeRate then
    ¬ now < saturate (entry.receivedAt.toNat + instantConfirmationTargetSeconds.toNat)
  else if entry.feeRate ≥ pool.standardFeeRate then
    ¬ now < saturate (entry.receivedAt.toNat + standardConfirmationTargetSeconds.toNat)
  else false

-- The loop of `get_transactions_for_block`, with the three accumulators.
def selectEntries (pool : Mempool) (now maxSize : UInt64) :
    List MempoolEntry → List Transaction → UInt64 → UInt64 → List Transaction × UInt64
  | [],selected,_,totalFees => (selected,totalFees)
  | entry :: rest,selected,totalSize,totalFees =>
    if ¬ pool.eligible now entry then pool.selectEntries now maxSize rest selected totalSize totalFees
    else
      let size := saturate (totalSize.toNat + entry.transaction.estimatedSize)
      if size > maxSize then pool.selectEntries now maxSize rest selected totalSize totalFees
      else
        let fees := saturate (totalFees.toNat + entry.feePaid.toNat)
        let selected := selected ++ [entry.transaction]
        if selected.length ≥ 10 then (selected,fees) else pool.selectEntries now maxSize rest selected size fees

-- An order in which the hash map may yield its values.
abbrev Yields (pool : Mempool) (values : List MempoolEntry) : Prop := FiniteMap.Yields pool.transactions values

-- `values` is the order in which the hash map yields them.
def getTransactionsForBlock (c : Crates) (pool : Mempool) (values : List MempoolEntry) (now maxSize : UInt64) :
    List Transaction × UInt64 :=
  pool.selectEntries now maxSize (values.insertionSort fun left right => (blockOrder c left right).isLE) [] 0 0

def removeConfirmedTransactions (c : Crates) (pool : Mempool) (confirmed : List Transaction) : Mempool :=
  { pool with
    transactions := FiniteMap.retain pool.transactions fun txid entry =>
      decide (txid ∉ confirmed.map (Transaction.txid c)) &&
        !entry.transaction.inputs.any fun input => decide (input.previousOutput ∈ confirmed.flatMap Transaction.spends) }

end Mempool

end BlindEye
