import BlindEye.ChainState

namespace BlindEye.MerkleCommitment
open AddBlock PairTree

variable {c : Crates} {one two block : Block}

-- What `calculate_merkle_root` hands to BLAKE3: the transactions, and the pairs
-- of every level.
def hashed (c : Crates) (transactions : List Transaction) : List (List UInt8) :=
  transactions.map Transaction.serialize ++
    (collapsePairs (Block.merkleNode c) transactions.length (transactions.map (Transaction.txid c))).map
      fun pair => pair.1.bytes ++ pair.2.bytes

def CollisionFree (c : Crates) (left right : List Transaction) : Prop :=
  Set.InjOn c.blake3 {bytes | bytes ∈ hashed c left ++ hashed c right}

theorem pair_bytes {x y : Digest × Digest} (equal : x.1.bytes ++ x.2.bytes = y.1.bytes ++ y.2.bytes) : x = y := by
  obtain ⟨left,right⟩ := List.append_inj equal (x.1.size.trans y.1.size.symm)
  exact Prod.ext (Digest.ext_bytes left) (Digest.ext_bytes right)

theorem leaf_hashed {transactions : List Transaction} (member : tx ∈ transactions) :
    tx.serialize ∈ hashed c transactions := List.mem_append_left _ (List.mem_map_of_mem member)

theorem pair_hashed {transactions : List Transaction} (member : pair ∈ collapsePairs (Block.merkleNode c)
    transactions.length (transactions.map (Transaction.txid c))) :
    pair.1.bytes ++ pair.2.bytes ∈ hashed c transactions := by
  apply List.mem_append_right
  exact List.mem_map.mpr ⟨pair,member,rfl⟩

theorem root_injective {left right : List Transaction} (nonempty : left ≠ []) (length : left.length = right.length)
    (collisionFree : CollisionFree c left right)
    (injective : ∀ x ∈ left, ∀ y ∈ right, x.serialize = y.serialize → x = y)
    (equal : Block.calculateMerkleRoot c left = Block.calculateMerkleRoot c right) : left = right := by
  have nonempty' : right ≠ [] := List.ne_nil_of_length_pos (length ▸ List.length_pos_iff.mpr nonempty)
  have trees : collapse (Block.merkleNode c) left.length (left.map (Transaction.txid c)) =
      collapse (Block.merkleNode c) left.length (right.map (Transaction.txid c)) := by
    rw [Block.merkle_single c left nonempty,equal,length,Block.merkle_single c right nonempty']
  have leaves : left.map (Transaction.txid c) = right.map (Transaction.txid c) := by
    apply collapse_injective (by simp [length]) _ trees
    intro x first y second same
    rw [length] at second
    exact pair_bytes (collisionFree (List.mem_append_left _ (pair_hashed first))
      (List.mem_append_right _ (pair_hashed second)) same)
  apply map_injective_on _ leaves
  intro x first y second same
  exact injective x first y second (collisionFree (List.mem_append_left _ (leaf_hashed first))
    (List.mem_append_right _ (leaf_hashed second)) same)

theorem header_commits {previous : Option Block} (header : one.header = two.header)
    (first : one.validate c previous = .ok ()) (second : two.validate c previous = .ok ())
    (collisionFree : CollisionFree c one.transactions two.transactions)
    (injective : ∀ x ∈ one.transactions, ∀ y ∈ two.transactions, x.serialize = y.serialize → x = y) :
    one.transactions = two.transactions ↔ one.transactions.length = two.transactions.length := by
  constructor
  · exact congrArg List.length
  · intro length
    have left := ((Block.validate_exact _ _ _).mp first).2
    have right := ((Block.validate_exact _ _ _).mp second).2
    have roots : Block.calculateMerkleRoot c one.transactions = Block.calculateMerkleRoot c two.transactions := by
      rw [← left.merkle,← right.merkle,header]
    exact root_injective left.nonempty length collisionFree injective roots

-- The last transaction of an odd list is hashed with itself, so writing it out
-- once more changes nothing: every such block has a twin.
theorem root_repeat {transactions : List Transaction} (even : transactions.length % 2 = 0)
    (inner : transactions ≠ []) (tx : Transaction) :
    Block.calculateMerkleRoot c (transactions ++ [tx,tx]) = Block.calculateMerkleRoot c (transactions ++ [tx]) := by
  have evenLeaves : (transactions.map (Transaction.txid c)).length % 2 = 0 := by simpa using even
  have innerLeaves : transactions.map (Transaction.txid c) ≠ [] := by simpa using inner
  have tree := collapse_repeat (Block.merkleNode c) evenLeaves innerLeaves (tx.txid c)
  rw [List.length_map] at tree
  simp [Block.calculateMerkleRoot,tree]

theorem twin_validates {transactions : List Transaction} {header : BlockHeader} {previous : Option Block}
    (even : transactions.length % 2 = 0) (inner : transactions ≠ []) (tx : Transaction) :
    Block.validate c ⟨header,transactions ++ [tx,tx]⟩ previous = .ok () ↔
      Block.validate c ⟨header,transactions ++ [tx]⟩ previous = .ok () := by
  have sealed : Block.Sealed c ⟨header,transactions ++ [tx,tx]⟩ ↔ Block.Sealed c ⟨header,transactions ++ [tx]⟩ := by
    have roots := root_repeat (c := c) even inner tx
    constructor
    · intro ⟨_,merkle,work⟩
      exact ⟨by simp,merkle.trans roots,work⟩
    · intro ⟨_,merkle,work⟩
      exact ⟨by simp,merkle.trans roots.symm,work⟩
  rw [Block.validate_exact,Block.validate_exact,sealed]
  rfl

-- A block of three transactions that spends the two outputs of the coinbase
-- before it, and the same header over the twin list of four.
def fund : Transaction := .new [] [⟨100,generatorAddress⟩,⟨100,generatorAddress⟩]
def spend (vout : UInt32) : Transaction := .new [⟨⟨fund.txid reference,vout⟩,generatorKey,0⟩] [⟨100,[9]⟩]
def fundBlock : Block := blockOn genesisState.genesisHash 1 [fund]
def tripleBlock : Block := blockOn (fundBlock.hash reference) 2 [createCoinbaseTransaction 2 100 [2],spend 0,spend 1]
def twinBlock : Block := ⟨tripleBlock.header,tripleBlock.transactions ++ [spend 1]⟩

theorem tripleBlock_validates : tripleBlock.validate reference (some fundBlock) = .ok () := by decide +kernel
theorem twinBlock_validates : twinBlock.validate reference (some fundBlock) = .ok () := by decide +kernel

theorem triple_serialize : ∀ x ∈ tripleBlock.transactions, ∀ y ∈ twinBlock.transactions,
    x.serialize = y.serialize → x = y := by decide +kernel

theorem triple_collisionFree : CollisionFree reference tripleBlock.transactions twinBlock.transactions := by
  have apart : ∀ x ∈ hashed reference tripleBlock.transactions ++ hashed reference twinBlock.transactions,
      ∀ y ∈ hashed reference tripleBlock.transactions ++ hashed reference twinBlock.transactions,
        reference.blake3 x = reference.blake3 y → x = y := by decide +kernel
  exact fun x first y second => apart x first y second

theorem header_commits_triple : tripleBlock.transactions = twinBlock.transactions ↔
    tripleBlock.transactions.length = twinBlock.transactions.length :=
  header_commits rfl tripleBlock_validates twinBlock_validates triple_collisionFree triple_serialize

theorem twin_shuts_out : tripleBlock.header = twinBlock.header ∧
    tripleBlock.validate reference (some fundBlock) = .ok () ∧ twinBlock.validate reference (some fundBlock) = .ok () ∧
    CollisionFree reference tripleBlock.transactions twinBlock.transactions ∧
    (∀ x ∈ tripleBlock.transactions, ∀ y ∈ twinBlock.transactions, x.serialize = y.serialize → x = y) ∧
    tripleBlock.transactions ≠ twinBlock.transactions ∧
    (Runs.feed (Blockchain.addBlock reference) genesisState [fundBlock,twinBlock,tripleBlock]).map Prod.snd =
      some [.ok (),.error "Input UTXO not found or already spent",.error "Block is already known"] := by
  refine ⟨rfl,tripleBlock_validates,twinBlock_validates,triple_collisionFree,triple_serialize,?_,?_⟩
  · intro equal
    have length := congrArg List.length equal
    simp [twinBlock] at length
  · decide +kernel

end BlindEye.MerkleCommitment
