import BlindEye.Library.PairTree
import BlindEye.Transaction
import BlindEye.Protocol
import BlindEye.Pow

namespace BlindEye

structure BlockHeader where
  previousBlockHash : Digest
  merkleRoot : Digest
  timestamp : UInt64
  bits : UInt32
  nonce : UInt64
  height : UInt64
  deriving DecidableEq

structure Block where
  header : BlockHeader
  transactions : List Transaction
  deriving DecidableEq

def BlockHeader.serialize (header : BlockHeader) : List UInt8 :=
  header.previousBlockHash.bytes ++ header.merkleRoot.bytes ++ u64Bytes header.timestamp ++
    u32Bytes header.bits ++ u64Bytes header.nonce ++ u64Bytes header.height

namespace Block

def hash (c : Crates) (block : Block) : Digest := BlindHash.hash c block.header.serialize

def merkleNode (c : Crates) (left right : Digest) : Digest := c.blake3 (left.bytes ++ right.bytes)

-- As many rounds as there are leaves are enough, see `merkle_single`.
def calculateMerkleRoot (c : Crates) (transactions : List Transaction) : Digest :=
  if transactions.isEmpty then .zero
  else (PairTree.collapse (merkleNode c) transactions.length (transactions.map (Transaction.txid c))).headD .zero

-- `now` is the reading of the system clock.
def withBits (c : Crates) (now : UInt64) (previousBlockHash : Digest) (transactions : List Transaction)
    (height : UInt64) (bits : UInt32) : Block :=
  ⟨⟨previousBlockHash,calculateMerkleRoot c transactions,now,bits,0,height⟩,transactions⟩

def hashValue (c : Crates) (block : Block) : U128 :=
  BitVec.ofNat 128 (LittleEndian.fromBytes ((block.hash c).bytes.take 16))

-- The checks against the block stored under `previous_block_hash`. Heights are
-- u64, so `height + 1` wraps in a release build.
def validateParent (c : Crates) (block : Block) : Option Block → Answer
  | some prev =>
    if block.header.height ≠ prev.header.height + 1 then .error "Block height does not follow previous block"
    else if block.header.previousBlockHash ≠ prev.hash c then .error "Previous block hash mismatch"
    else if block.header.timestamp < prev.header.timestamp then .error "Block timestamp moved backwards"
    else .ok ()
  | none => if block.header.height ≠ 0 then .error "Genesis block must have height 0" else .ok ()

def validate (c : Crates) (block : Block) (previousBlock : Option Block) : Answer :=
  if block.transactions.isEmpty then .error "Block must contain at least one transaction"
  else match block.validateParent c previousBlock with
  | .error text => .error text
  | .ok () =>
    if block.header.merkleRoot ≠ calculateMerkleRoot c block.transactions then .error "Invalid merkle root"
    else if block.hashValue c > BlindHash.targetFromBits block.header.bits then
      .error "Proof-of-work target not met"
    else .ok ()

theorem merkle_single (c : Crates) (transactions : List Transaction) (nonempty : transactions ≠ []) :
    PairTree.collapse (merkleNode c) transactions.length (transactions.map (Transaction.txid c)) =
      [calculateMerkleRoot c transactions] := by
  have leaves : transactions.map (Transaction.txid c) ≠ [] := by simpa using nonempty
  have enough : (transactions.map (Transaction.txid c)).length ≤ transactions.length + 1 := by simp
  obtain ⟨root,single⟩ := List.length_eq_one_iff.mp (PairTree.collapse_length (merkleNode c) leaves enough)
  simp [calculateMerkleRoot,nonempty,single]

-- What it takes to follow a stored parent, and what it takes without one.
def Follows (c : Crates) (block prev : Block) : Prop :=
  block.header.height = prev.header.height + 1 ∧ block.header.previousBlockHash = prev.hash c ∧
    prev.header.timestamp ≤ block.header.timestamp

structure Sealed (c : Crates) (block : Block) : Prop where
  nonempty : block.transactions ≠ []
  merkle : block.header.merkleRoot = calculateMerkleRoot c block.transactions
  work : block.hashValue c ≤ BlindHash.targetFromBits block.header.bits

theorem validateParent_some (c : Crates) (block prev : Block) :
    block.validateParent c (some prev) = .ok () ↔ block.Follows c prev := by
  unfold Follows
  by_cases height : block.header.height = prev.header.height + 1
  · by_cases link : block.header.previousBlockHash = prev.hash c
    · by_cases early : block.header.timestamp < prev.header.timestamp
      · simp [validateParent,height,link,early]
      · simp [validateParent,height,link,early,UInt64.not_lt.mp early]
    · simp [validateParent,height,link]
  · simp [validateParent,height]

theorem validate_exact (c : Crates) (block : Block) (previous : Option Block) :
    block.validate c previous = .ok () ↔ block.validateParent c previous = .ok () ∧ block.Sealed c := by
  constructor
  · intro passed
    unfold validate at passed
    split at passed
    · cases passed
    · rename_i nonempty
      split at passed
      · cases passed
      · rename_i parent
        split at passed
        · cases passed
        · rename_i merkle
          split at passed
          · cases passed
          · rename_i work
            exact ⟨parent,⟨by simpa using nonempty,by simpa using merkle,BitVec.not_lt.mp work⟩⟩
  · intro checked
    obtain ⟨parent,nonempty,merkle,work⟩ := checked
    simp [validate,parent,nonempty,merkle,BitVec.not_lt.mpr work]

end Block

end BlindEye
