import BlindEye.Library.ParentWalk
import BlindEye.Library.Runs
import BlindEye.Ledger

namespace BlindEye

structure Blockchain where
  blocks : HashMap Digest Block
  headers : HashMap Digest BlockHeader
  utxoSet : UtxoSet
  bootstrapUtxos : UtxoSet
  bestChain : List Digest
  genesisHash : Digest
  currentHeight : UInt64
  deriving DecidableEq

namespace Blockchain

def getBlock (s : Blockchain) (hash : Digest) : Option Block := s.blocks.lookup hash

def parentLink (s : Blockchain) (hash : Digest) : Option Digest :=
  (s.getBlock hash).map fun block => block.header.previousBlockHash

-- `none` is a loop that never ends. `ParentWalk.chase_exact` shows that this
-- fuel is enough for every loop that does.
def pathToGenesis (s : Blockchain) (tipHash : Digest) : Option (Option (List Digest)) :=
  ParentWalk.chase s.parentLink s.genesisHash (s.blocks.keys.card + 1) tipHash

def applyStored (c : Crates) (s : Blockchain) (utxoSet : UtxoSet) (hash : Digest) : Except String UtxoSet :=
  match s.getBlock hash with
  | none => .error "Block missing from candidate chain"
  | some block => applyBlockToUtxoSet c block utxoSet

def buildUtxoStateForChain (c : Crates) (s : Blockchain) (chain : List Digest) : Except String UtxoSet :=
  chain.foldlM (s.applyStored c) s.bootstrapUtxos

def genesisTx : Transaction := .new [] [⟨0,[103,101,110,101,115,105,115]⟩]

-- The clock reading of `with_bits` is overwritten by the fixed timestamp.
def createGenesisBlock (c : Crates) : Block :=
  Block.withBits c Protocol.genesisTimestamp .zero [genesisTx] 0 Protocol.defaultBits

def bare (c : Crates) : Blockchain :=
  let genesisBlock := createGenesisBlock c
  let genesisHash := genesisBlock.hash c
  { blocks := Finmap.singleton genesisHash genesisBlock
    headers := Finmap.singleton genesisHash genesisBlock.header
    utxoSet := ∅
    bootstrapUtxos := ∅
    bestChain := [genesisHash]
    genesisHash
    currentHeight := 0 }

-- `expect` on the replay: `new_replays` shows that it does not panic.
def new (c : Crates) : Blockchain :=
  { bare c with
    utxoSet := match (bare c).buildUtxoStateForChain c (bare c).bestChain with
      | .ok utxoSet => utxoSet
      | .error _ => ∅ }

def store (c : Crates) (s : Blockchain) (block : Block) : Blockchain :=
  { s with
    blocks := s.blocks.insert (block.hash c) block
    headers := s.headers.insert (block.hash c) block.header }

-- `None` stands for a call that does not come back.
def addBlock (c : Crates) (s : Blockchain) (block : Block) : Option (Blockchain × Answer) :=
  let blockHash := block.hash c
  if blockHash ∈ s.blocks then some (s,.error "Block is already known")
  else if block.header.height > 0 ∧ block.header.previousBlockHash ∉ s.blocks then
    some (s,.error "Previous block not found")
  else
    match block.validate c (s.getBlock block.header.previousBlockHash) with
    | .error text => some (s,.error text)
    | .ok () =>
      let s := s.store c block
      match s.pathToGenesis blockHash with
      | none => none
      | some none => some (s,.error "Unable to build candidate chain path")
      | some (some candidateChain) =>
        match s.buildUtxoStateForChain c candidateChain with
        | .error text => some (s,.error text)
        | .ok candidateUtxo =>
          if candidateChain.length > s.bestChain.length then
            some ({ s with
              bestChain := candidateChain
              currentHeight := block.header.height
              utxoSet := candidateUtxo },.ok ())
          else some (s,.ok ())

def containsTransaction (c : Crates) (s : Blockchain) (txid : Digest) : Bool :=
  s.blocks.any fun _ block => block.transactions.any fun transaction => transaction.txid c == txid

end Blockchain

end BlindEye
