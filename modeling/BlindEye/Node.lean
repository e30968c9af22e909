import BlindEye.ChainViews
import BlindEye.Mempool
import BlindEye.Mining

namespace BlindEye

structure BlockTemplate where
  block : Block
  header : BlockHeader
  deriving DecidableEq

def BlockTemplate.new (c : Crates) (now : UInt64) (previousBlockHash : Digest) (transactions : List Transaction)
    (height blockReward : UInt64) (minerAddress : List UInt8) (bits : UInt32) : BlockTemplate :=
  let coinbase := createCoinbaseTransaction height blockReward minerAddress
  let block := Block.withBits c now previousBlockHash (coinbase :: transactions) height bits
  ⟨block,block.header⟩

-- The block of a miner that tried `nonce`.
def BlockTemplate.mined (template : BlockTemplate) (nonce : UInt64) : Block :=
  { template.block with header := { template.header with nonce } }

-- What the two mutexes guard.
structure Node where
  blockchain : Blockchain
  mempool : Mempool
  deriving DecidableEq

namespace Node

def inMemory (c : Crates) : Node := ⟨.new c,.new 10000 1⟩

-- The section of `submit_transaction` under the blockchain lock.
def quoteFee (c : Crates) (blockchain : Blockchain) (transaction : Transaction) : Except String UInt64 :=
  if blockchain.containsTransaction c (transaction.txid c) then
    .error "Transaction is already confirmed on the chain"
  else blockchain.calculateTransactionFee c transaction

-- The section under the mempool lock.
def enterMempool (c : Crates) (mempool : Mempool) (transaction : Transaction) (feePaid now : UInt64) :
    Except String Mempool :=
  if mempool.containsTransaction (transaction.txid c) then .error "Transaction is already in the mempool"
  else if feePaid < mempool.minimumRequiredFee transaction then
    .error ("Transaction fee is too low: requires at least " ++
      Protocol.formatBecAmount (mempool.minimumRequiredFee transaction) ++ " BEC, but only " ++
      Protocol.formatBecAmount feePaid ++ " BEC were provided")
  else if mempool.hasConflictingInputs transaction then
    .error "Transaction conflicts with an existing mempool entry"
  else mempool.addTransaction c transaction feePaid now

-- The two sections with nothing between them, on a disk that does not fail.
def submitTransaction (c : Crates) (node : Node) (transaction : Transaction) (now : UInt64) : Node × Answer :=
  match quoteFee c node.blockchain transaction with
  | .error text => (node,.error text)
  | .ok feePaid =>
    match enterMempool c node.mempool transaction feePaid now with
    | .error text => (node,.error text)
    | .ok mempool => ({ node with mempool },.ok ())

-- What the file system answers to `save_state`. A path without a parent
-- directory has none to create.
structure Disk where
  createDirAll : Option Answer
  serialize : Answer
  write : Answer

def saveState (disk : Disk) : Answer := do
  (disk.createDirAll.getD (.ok ())).mapError ("Failed to prepare node state directory: " ++ ·)
  disk.serialize.mapError ("Failed to serialize node state: " ++ ·)
  disk.write.mapError ("Failed to write node state: " ++ ·)

-- The two sections on any disk: the state is saved after the mempool has changed.
def submitTransactionOn (c : Crates) (disk : Disk) (node : Node) (transaction : Transaction) (now : UInt64) :
    Node × Answer :=
  match quoteFee c node.blockchain transaction with
  | .error text => (node,.error text)
  | .ok feePaid =>
    match enterMempool c node.mempool transaction feePaid now with
    | .error text => (node,.error text)
    | .ok mempool => ({ node with mempool },saveState disk)

-- The mempool is cleaned with the transactions of the submitted block alone.
def submitBlock (c : Crates) (node : Node) (block : Block) : Option (Node × Answer) :=
  let submittedHash := block.hash c
  (node.blockchain.addBlock c block).map fun (blockchain,answer) =>
    match answer with
    | .error text => ({ node with blockchain },.error text)
    | .ok () =>
      if blockchain.bestChain.getLast? = some submittedHash then
        let confirmedTransactions := ((blockchain.getBlock submittedHash).map Block.transactions).getD []
        (⟨blockchain,node.mempool.removeConfirmedTransactions c confirmedTransactions⟩,.ok ())
      else ({ node with blockchain },.ok ())

-- `nextWorkBits` is `Blockchain.nextWorkBits`. What does not depend on the difficulty
-- is proved of any function of the chain and the number of transactions.
def createBlockTemplate (c : Crates) (nextWorkBits : Blockchain → Nat → UInt32) (node : Node)
    (values : List MempoolEntry) (now : UInt64) (minerAddress : List UInt8) : Except String BlockTemplate :=
  match node.blockchain.bestChain.getLast? with
  | none => .error "No best chain"
  | some bestHash =>
    match node.blockchain.getBlock bestHash with
    | none => .error "Best block missing"
    | some best =>
      let (transactions,totalFees) := node.mempool.getTransactionsForBlock c values now 1000000
      let height := node.blockchain.currentHeight + 1
      let blockReward :=
        saturate ((Protocol.EmissionSchedule.default.blockReward height).toNat + totalFees.toNat)
      let bits := nextWorkBits node.blockchain transactions.length
      let timestamp := max now best.header.timestamp
      let template := BlockTemplate.new c now bestHash transactions height blockReward minerAddress bits
      .ok ⟨{ template.block with header := { template.block.header with timestamp } },
        { template.header with timestamp }⟩

def blocksFromHeight (blockchain : Blockchain) (fromHeight : UInt64) (count : UInt32) : List Block :=
  ((blockchain.bestChain.filterMap blockchain.getBlock).filter fun block =>
    decide (block.header.height ≥ fromHeight)).take count.toNat

def resetBlockchain (c : Crates) (node : Node) : Node := { node with blockchain := .new c }
def resetMempool (node : Node) : Node := { node with mempool := .new 10000 1 }

end Node

inductive NodeCall where
  | submitTransaction (transaction : Transaction) (now : UInt64)
  | submitBlock (block : Block)

def Node.call (c : Crates) (node : Node) : NodeCall → Option (Node × Answer)
  | .submitTransaction transaction now => some (node.submitTransaction c transaction now)
  | .submitBlock block => node.submitBlock c block

-- A node between the lock sections of its callers: `quoted` holds the
-- transactions whose fee is computed and which are not entered yet.
structure SharedNode where
  node : Node
  quoted : List (Transaction × UInt64)
  deriving DecidableEq

inductive Turn where
  | quote (transaction : Transaction)
  | enter (transaction : Transaction) (feePaid now : UInt64)
  | submitBlock (block : Block)
  | resetBlockchain
  | resetMempool

namespace SharedNode

def inMemory (c : Crates) : SharedNode := ⟨.inMemory c,[]⟩

-- One lock section of one caller. A caller enters only what it has quoted.
def turn (c : Crates) (x : SharedNode) : Turn → Option (SharedNode × Answer)
  | .quote transaction =>
    match Node.quoteFee c x.node.blockchain transaction with
    | .error text => some (x,.error text)
    | .ok feePaid => some ({ x with quoted := (transaction,feePaid) :: x.quoted },.ok ())
  | .enter transaction feePaid now =>
    if (transaction,feePaid) ∉ x.quoted then none
    else
      let quoted := x.quoted.erase (transaction,feePaid)
      match Node.enterMempool c x.node.mempool transaction feePaid now with
      | .error text => some ({ x with quoted },.error text)
      | .ok mempool => some (⟨{ x.node with mempool },quoted⟩,.ok ())
  | .submitBlock block => (x.node.submitBlock c block).map fun (node,answer) => ({ x with node },answer)
  | .resetBlockchain => some ({ x with node := x.node.resetBlockchain c },.ok ())
  | .resetMempool => some ({ x with node := x.node.resetMempool },.ok ())

end SharedNode

end BlindEye
