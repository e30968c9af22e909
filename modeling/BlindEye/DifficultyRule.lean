import BlindEye.ChainState
import BlindEye.LedgerRules

namespace BlindEye.DifficultyRule
open AddBlock ChainState LedgerRules ParentWalk

variable {c : Crates} {s next : Blockchain} {block : Block} {chain : List Digest} {ledger after : UtxoSet}

def target (block : Block) : Nat := (BlindHash.targetFromBits block.header.bits).toNat

theorem target_lt (block : Block) : target block < 2^128 := (BlindHash.targetFromBits block.header.bits).isLt

-- Every accepted block with a stored parent keeps within twice the parent's target.
def Enforced (c : Crates) (s : Blockchain) : Prop :=
  ∀ block next parent, s.getBlock block.header.previousBlockHash = some parent →
    s.addBlock c block = some (next,.ok ()) → target block ≤ 2 * target parent

-- The block under `k` ends a branch that replays, so it can be built upon.
def Extendable (c : Crates) (s : Blockchain) (k : Digest) : Prop :=
  ∃ chain ledger, s.pathToGenesis k = some (some chain) ∧ s.buildUtxoStateForChain c chain = .ok ledger

-- No 128-bit target is more than twice one of these.
def HighTargets (c : Crates) (s : Blockchain) : Prop :=
  ∀ k parent, s.getBlock k = some parent → Extendable c s k → 2^127 ≤ target parent

theorem extension_accepted (valid : Valid c s) (admitted : Admitted c s block)
    (branch : Branch s block.header.previousBlockHash chain)
    (built : s.buildUtxoStateForChain c chain = .ok ledger) (applied : applyBlockToUtxoSet c block ledger = .ok after) :
    ∃ next, s.addBlock c block = some (next,.ok ()) := by
  have whole := store_branch valid admitted branch
  have replayed := (store_replay admitted.fresh (branch_stored branch) built).trans applied
  by_cases longer : (chain ++ [block.hash c]).length > s.bestChain.length
  · exact ⟨_,addBlock_complete (.adopted admitted whole replayed longer)⟩
  · exact ⟨_,addBlock_complete (.kept admitted whole replayed (Nat.not_lt.mp longer))⟩

theorem accepted_extends (valid : Valid c s) (step : Step c s block next (.ok ())) :
    Extendable c s block.header.previousBlockHash := by
  have below : ∀ chain ledger, Admitted c s block → Branch (s.store c block) (block.hash c) chain →
      (s.store c block).buildUtxoStateForChain c chain = .ok ledger → Extendable c s block.header.previousBlockHash := by
    intro chain ledger admitted branch built
    obtain ⟨front,below,rfl⟩ := branch_below valid admitted branch
    obtain ⟨mid,replayed,_⟩ := Fallible.fold_append.mp built
    refine ⟨front,mid,path_branch.mpr below,?_⟩
    rw [← replay_grows (store_grows admitted.fresh) (branch_stored below)]
    exact replayed
  cases step with
  | adopted admitted branch built => exact below _ _ admitted branch built
  | kept admitted branch built => exact below _ _ admitted branch built

-- A child of default difficulty, whatever its parent's bits.
def childOf (c : Crates) (parent : Block) (transactions : List Transaction) (nonce : UInt64) : Block :=
  let block := Block.withBits c parent.header.timestamp (parent.hash c) transactions
    (parent.header.height + 1) Protocol.defaultBits
  { block with header := { block.header with nonce } }

def easyChild (c : Crates) (parent : Block) (nonce : UInt64) : Block := childOf c parent [wrappingCoinbase] nonce

-- For every stored block, some nonce gives its easy child a hash that is new.
def Mineable (c : Crates) (s : Blockchain) : Prop :=
  ∀ k parent, s.getBlock k = some parent → ∃ nonce, (easyChild c parent nonce).hash c ∉ s.blocks

theorem easyChild_target (c : Crates) (parent : Block) (nonce : UInt64) :
    target (easyChild c parent nonce) = 2^128 - 1 := by
  change (BlindHash.targetFromBits Protocol.defaultBits).toNat = _
  decide

theorem childOf_admitted {transactions : List Transaction} (valid : Valid c s) (stored : s.getBlock k = some parent)
    (nonempty : transactions ≠ []) (fresh : (childOf c parent transactions nonce).hash c ∉ s.blocks) :
    Admitted c s (childOf c parent transactions nonce) := by
  have keyed := valid.keyed k parent stored
  have linked : s.getBlock (childOf c parent transactions nonce).header.previousBlockHash = some parent := by
    change s.getBlock (parent.hash c) = some parent
    rw [keyed,stored]
  refine ⟨fresh,fun _ => mem_blocks.mpr ⟨parent,linked⟩,?_⟩
  rw [linked]
  apply (Block.validate_exact _ _ _).mpr
  refine ⟨(Block.validateParent_some _ _ _).mpr ⟨rfl,rfl,UInt64.le_refl _⟩,nonempty,rfl,?_⟩
  have most : BlindHash.targetFromBits (childOf c parent transactions nonce).header.bits = BitVec.allOnes 128 := by
    change BlindHash.targetFromBits Protocol.defaultBits = _
    decide
  rw [most]
  apply BitVec.le_def.mpr
  rw [BitVec.toNat_allOnes]
  have bound := ((childOf c parent transactions nonce).hashValue c).isLt
  omega

theorem childOf_accepted {transactions : List Transaction} (valid : Valid c s) (stored : s.getBlock k = some parent)
    (nonempty : transactions ≠ []) (fresh : (childOf c parent transactions nonce).hash c ∉ s.blocks)
    (extendable : Extendable c s k)
    (applies : ∀ ledger, ∃ after, applyBlockToUtxoSet c (childOf c parent transactions nonce) ledger = .ok after) :
    ∃ next, s.addBlock c (childOf c parent transactions nonce) = some (next,.ok ()) := by
  obtain ⟨chain,ledger,path,built⟩ := extendable
  obtain ⟨after,applied⟩ := applies ledger
  have branch : Branch s (childOf c parent transactions nonce).header.previousBlockHash chain := by
    change Branch s (parent.hash c) chain
    rw [valid.keyed k parent stored]
    exact path_branch.mp path
  exact extension_accepted valid (childOf_admitted valid stored nonempty fresh) branch built applied

-- The bits of a block are compared with its own hash only. So the bound is kept
-- exactly where no 128-bit target can exceed it.
theorem enforced_exact (reached : Reachable c s) :
    (HighTargets c s → Enforced c s) ∧ (Mineable c s → Enforced c s → HighTargets c s) := by
  have valid := reached_valid reached
  constructor
  · intro high block next parent stored accepted
    have least := high _ parent stored (accepted_extends valid (addBlock_sound accepted))
    have most := target_lt block
    omega
  · intro mineable enforced k parent stored extendable
    obtain ⟨nonce,fresh⟩ := mineable k parent stored
    have keyed := valid.keyed k parent stored
    obtain ⟨next,accepted⟩ := childOf_accepted valid stored (List.cons_ne_nil _ _) fresh extendable
      fun ledger => ⟨_,wrapping_applies c _ ledger⟩
    have linked : s.getBlock (easyChild c parent nonce).header.previousBlockHash = some parent := by
      change s.getBlock (parent.hash c) = some parent
      rw [keyed,stored]
    have bound := enforced _ next parent linked accepted
    rw [easyChild_target] at bound
    omega

-- The target of `hardBlock` is far from the top, so its children can drop the difficulty.
theorem enforced_exact_hardBlock : ∃ s, Reachable reference s ∧ ¬ HighTargets reference s ∧ ¬ Enforced reference s := by
  have fed : (Runs.feed (Blockchain.addBlock reference) genesisState [hardBlock]).map (fun pair =>
      decide ((easyChild reference (Blockchain.createGenesisBlock reference) 0).hash reference ∉ pair.1.blocks ∧
        (easyChild reference hardBlock 0).hash reference ∉ pair.1.blocks ∧
        pair.1.getBlock (hardBlock.hash reference) = some hardBlock ∧
        pair.1.bestChain.getLast? = some (hardBlock.hash reference))) = some true := by decide +kernel
  obtain ⟨⟨s,answers⟩,ran,facts⟩ := Option.map_eq_some_iff.mp fed
  obtain ⟨genesis,hard,stored,tip⟩ := of_decide_eq_true facts
  obtain ⟨path,lengths⟩ := Runs.feed_run ran
  have reached : Reachable reference s := ⟨_,path⟩
  have mineable : Mineable reference s := by
    intro k parent found
    rcases run_stored path k parent found with rfl | delivered
    · exact ⟨0,genesis⟩
    · rw [List.map_fst_zip (Nat.le_of_eq lengths)] at delivered
      obtain rfl := List.mem_singleton.mp delivered
      exact ⟨0,hard⟩
  have low : ¬ HighTargets reference s := by
    intro high
    obtain ⟨last,_,branch,_,_⟩ := (reached_valid reached).tip
    obtain rfl : last = hardBlock.hash reference := Option.some.inj (branch.last.symm.trans tip)
    have least := high _ hardBlock stored ⟨_,_,path_branch.mpr branch,(reached_valid reached).replay⟩
    exact absurd least (by decide +kernel)
  exact ⟨s,reached,low,fun enforced => low ((enforced_exact reached).2 mineable enforced)⟩

def droppedBlock : Block := blockOn (hardBlock.hash reference) 2 [createCoinbaseTransaction 2 100 [3]]

theorem droppedBlock_accepted : ∃ s next, Reachable reference s ∧
    s.getBlock droppedBlock.header.previousBlockHash = some hardBlock ∧
    s.addBlock reference droppedBlock = some (next,.ok ()) ∧ 2 * target hardBlock < target droppedBlock := by
  have fed : (Runs.feed (Blockchain.addBlock reference) genesisState [hardBlock]).bind (fun pair =>
      (pair.1.addBlock reference droppedBlock).map fun later =>
        (decide (pair.1.getBlock droppedBlock.header.previousBlockHash = some hardBlock),later.2)) =
      some (true,.ok ()) := by decide +kernel
  obtain ⟨⟨s,answers⟩,ran,rest⟩ := Option.bind_eq_some_iff.mp fed
  obtain ⟨⟨next,answer⟩,accepted,facts⟩ := Option.map_eq_some_iff.mp rest
  obtain ⟨parent,rfl⟩ := Prod.mk.inj facts
  exact ⟨s,next,⟨_,(Runs.feed_run ran).1⟩,of_decide_eq_true parent,accepted,by decide +kernel⟩

end BlindEye.DifficultyRule
