import BlindEye.ChainState

namespace BlindEye.Atomicity
open AddBlock ChainState

variable {c : Crates} {s next : Blockchain} {block : Block}

-- The block is written to the maps, and what comes after the writes fails.
def LeftBehind (c : Crates) (s : Blockchain) (block : Block) : Prop :=
  Admitted c s block ∧ ((s.store c block).pathToGenesis (block.hash c) = some none ∨
    ∃ chain text, (s.store c block).pathToGenesis (block.hash c) = some (some chain) ∧
      (s.store c block).buildUtxoStateForChain c chain = .error text)

theorem store_ne (fresh : block.hash c ∉ s.blocks) : s.store c block ≠ s := by
  intro same
  refine fresh (mem_blocks.mpr ⟨block,?_⟩)
  rw [← same]
  exact getBlock_store_self

theorem leftBehind_fails (left : LeftBehind c s block) :
    ∃ text, s.addBlock c block = some (s.store c block,.error text) := by
  obtain ⟨admitted,lost | ⟨chain,text,path,failed⟩⟩ := left
  · exact ⟨_,addBlock_complete (.adrift admitted (path_adrift.mp lost))⟩
  · exact ⟨text,addBlock_complete (.invalid admitted (path_branch.mp path) failed)⟩

theorem rejection_atomic_exact (c : Crates) (s : Blockchain) (block : Block) :
    (∀ next text, s.addBlock c block = some (next,.error text) → next = s) ↔ ¬ LeftBehind c s block := by
  constructor
  · intro atomic left
    obtain ⟨text,ran⟩ := leftBehind_fails left
    exact store_ne left.1.fresh (atomic _ _ ran)
  · intro clean next text ran
    cases addBlock_sound ran with
    | known | orphan | refused => rfl
    | adrift admitted lost => exact absurd ⟨admitted,.inl (path_adrift.mpr lost)⟩ clean
    | invalid admitted branch failed =>
      exact absurd ⟨admitted,.inr ⟨_,_,path_branch.mpr branch,failed⟩⟩ clean

-- A coinbase of 200 BEC at height 1.
def greedyBlock : Block := blockOn genesisState.genesisHash 1 [createCoinbaseTransaction 1 20000000000 [1]]

theorem greedyBlock_left : ∃ next text, Reachable reference genesisState ∧
    genesisState.addBlock reference greedyBlock = some (next,.error text) ∧ next ≠ genesisState ∧
    next.addBlock reference greedyBlock = some (next,.error "Block is already known") ∧
    next.containsTransaction reference ((createCoinbaseTransaction 1 20000000000 [1]).txid reference) = true := by
  have fresh : greedyBlock.hash reference ∉ genesisState.blocks := by decide +kernel
  have rejected : genesisState.addBlock reference greedyBlock = some (genesisState.store reference greedyBlock,
      .error "Coinbase reward exceeds allowed subsidy and fees") := by decide +kernel
  refine ⟨genesisState.store reference greedyBlock,_,⟨[],.nil⟩,rejected,store_ne fresh,?_,by decide +kernel⟩
  exact addBlock_complete (.known (mem_blocks.mpr ⟨greedyBlock,getBlock_store_self⟩))

end BlindEye.Atomicity
