import BlindEye.AddBlock
import BlindEye.Reference

namespace BlindEye.ChainState
open AddBlock ParentWalk

variable {c : Crates} {s next later : Blockchain} {block : Block} {chain : List Digest} {ledger : UtxoSet}

def Reached (c : Crates) (meets : Blockchain → Block → Prop) (s : Blockchain) : Prop :=
  ∃ calls, Runs.Run (Blockchain.addBlock c) meets (.new c) calls s
abbrev Reachable (c : Crates) (s : Blockchain) : Prop := Reached c (fun _ _ => True) s

-- Stored blocks are never replaced, and the two roots of a replay never move.
structure Grows (s next : Blockchain) : Prop where
  blocks : ∀ k b, s.getBlock k = some b → next.getBlock k = some b
  genesis : next.genesisHash = s.genesisHash
  bootstrap : next.bootstrapUtxos = s.bootstrapUtxos

def Stored (s : Blockchain) (chain : List Digest) : Prop := ∀ k ∈ chain, ∃ b, s.getBlock k = some b

theorem Grows.same (grows : Grows s next) (stored : Stored s chain) : ∀ k ∈ chain, next.getBlock k = s.getBlock k := by
  intro k member
  obtain ⟨b,found⟩ := stored k member
  rw [found,grows.blocks k b found]

theorem Grows.refl (s : Blockchain) : Grows s s := ⟨fun _ _ stored => stored,rfl,rfl⟩
theorem Grows.trans (one : Grows s next) (two : Grows next later) : Grows s later :=
  ⟨fun k b stored => two.blocks k b (one.blocks k b stored),two.genesis.trans one.genesis,
    two.bootstrap.trans one.bootstrap⟩

@[simp] theorem getBlock_store_self : (s.store c block).getBlock (block.hash c) = some block :=
  Finmap.lookup_insert _
theorem getBlock_store_ne (other : k ≠ block.hash c) : (s.store c block).getBlock k = s.getBlock k :=
  Finmap.lookup_insert_of_ne _ other

theorem mem_blocks : k ∈ s.blocks ↔ ∃ b, s.getBlock k = some b := Finmap.mem_iff

theorem store_grows (fresh : block.hash c ∉ s.blocks) : Grows s (s.store c block) := by
  refine ⟨?_,rfl,rfl⟩
  intro k b stored
  rw [getBlock_store_ne fun equal => fresh (mem_blocks.mpr ⟨b,equal ▸ stored⟩)]
  exact stored

theorem store_stored (stored : (s.store c block).getBlock k = some b) :
    s.getBlock k = some b ∨ k = block.hash c ∧ b = block := by
  rcases FiniteMap.lookup_insert_cases stored with ⟨here,same⟩ | ⟨_,before⟩
  · exact .inr ⟨here,same.symm⟩
  · exact .inl before

-- What a call adds to the blocks: nothing, or the admitted block.
theorem step_stored (step : Step c s block next answer) (stored : next.getBlock k = some b) :
    s.getBlock k = some b ∨ Admitted c s block ∧ k = block.hash c ∧ b = block := by
  cases step with
  | known | orphan | refused => exact .inl stored
  | adrift admitted | invalid admitted | kept admitted | adopted admitted =>
    have stored : (s.store c block).getBlock k = some b := stored
    exact (store_stored stored).imp_right fun new => ⟨admitted,new⟩

theorem step_grows (step : Step c s block next answer) : Grows s next := by
  cases step with
  | known | orphan | refused => exact .refl s
  | adrift admitted | invalid admitted | kept admitted => exact store_grows admitted.fresh
  | adopted admitted =>
    have grown := store_grows admitted.fresh
    exact ⟨grown.blocks,grown.genesis,grown.bootstrap⟩

theorem branch_grows (grows : Grows s next) (branch : Branch s tip chain) : Branch next tip chain := by
  unfold Branch
  rw [grows.genesis]
  refine Walk.grow ?_ branch
  intro k up link
  obtain ⟨b,stored,rfl⟩ := Option.map_eq_some_iff.mp link
  simp [Blockchain.parentLink,grows.blocks k b stored]

theorem branch_stored (branch : Branch s tip chain) : Stored s chain := by
  intro k member
  have link := Walk.stored branch k member
  simpa [Blockchain.parentLink,Option.isSome_iff_exists] using link

theorem applyStored_exact : s.applyStored c utxoSet k = .ok after ↔
    ∃ b, s.getBlock k = some b ∧ applyBlockToUtxoSet c b utxoSet = .ok after := by
  unfold Blockchain.applyStored
  cases s.getBlock k with
  | none => simp
  | some b => simp

theorem replay_take (n : Nat) (built : s.buildUtxoStateForChain c chain = .ok after) :
    ∃ mid, s.buildUtxoStateForChain c (chain.take n) = .ok mid := by
  unfold Blockchain.buildUtxoStateForChain at built
  rw [← List.take_append_drop n chain] at built
  obtain ⟨mid,first,_⟩ := Fallible.fold_append.mp built
  exact ⟨mid,first⟩

-- A replay reads nothing but the blocks of its chain.
theorem replay_congr (bootstrap : next.bootstrapUtxos = s.bootstrapUtxos)
    (same : ∀ k ∈ chain, next.getBlock k = s.getBlock k) :
    next.buildUtxoStateForChain c chain = s.buildUtxoStateForChain c chain := by
  unfold Blockchain.buildUtxoStateForChain
  rw [bootstrap]
  generalize s.bootstrapUtxos = start
  induction chain generalizing start with
  | nil => rfl
  | cons k rest ih =>
    have here : next.applyStored c start k = s.applyStored c start k := by
      unfold Blockchain.applyStored
      rw [same k (List.mem_cons_self)]
    simp only [List.foldlM_cons,here]
    cases s.applyStored c start k with
    | error text => rfl
    | ok after => exact ih (fun k member => same k (List.mem_cons_of_mem _ member)) after

theorem replay_grows (grows : Grows s next) (stored : Stored s chain) :
    next.buildUtxoStateForChain c chain = s.buildUtxoStateForChain c chain :=
  replay_congr grows.bootstrap (grows.same stored)

-- Behind a chain that replays, a new block is applied to the chain's ledger.
theorem store_replay (fresh : block.hash c ∉ s.blocks) (stored : Stored s chain)
    (built : s.buildUtxoStateForChain c chain = .ok ledger) :
    (s.store c block).buildUtxoStateForChain c (chain ++ [block.hash c]) = applyBlockToUtxoSet c block ledger := by
  have below := (replay_grows (store_grows fresh) stored).trans built
  have last : (s.store c block).applyStored c ledger (block.hash c) = applyBlockToUtxoSet c block ledger := by
    unfold Blockchain.applyStored
    rw [getBlock_store_self]
  unfold Blockchain.buildUtxoStateForChain at below ⊢
  rw [List.foldlM_append,below,Fallible.ok_bind,List.foldlM_cons,last]
  cases applyBlockToUtxoSet c block ledger with
  | error text => rfl
  | ok after => rfl

theorem getBlock_new : (Blockchain.new c).getBlock k =
    if k = (Blockchain.new c).genesisHash then some (Blockchain.createGenesisBlock c) else none := by
  split
  · rename_i equal; subst equal; exact Finmap.lookup_singleton_eq
  · rename_i other
    exact Finmap.lookup_eq_none.mpr fun member => other ((Finmap.mem_singleton _ _ _).mp member)

theorem genesis_applies (c : Crates) (utxoSet : UtxoSet) :
    applyBlockToUtxoSet c (Blockchain.createGenesisBlock c) utxoSet =
      .ok (applyTransaction c Blockchain.genesisTx utxoSet 0) := by
  have coinbase : applyCoinbase c 0 Blockchain.genesisTx utxoSet =
      .ok (applyTransaction c Blockchain.genesisTx utxoSet 0) := rfl
  have reward : validateBlockReward 0 Blockchain.genesisTx 0 = .ok () := by decide
  simp only [applyBlockToUtxoSet,Blockchain.createGenesisBlock,Block.withBits,coinbase,Fallible.ok_bind]
  simp [pure,Except.pure,reward]

theorem new_replays (c : Crates) : (Blockchain.new c).buildUtxoStateForChain c (Blockchain.new c).bestChain =
    .ok (Blockchain.new c).utxoSet := by
  have genesis : (Blockchain.bare c).getBlock (Blockchain.bare c).genesisHash =
      some (Blockchain.createGenesisBlock c) := Finmap.lookup_singleton_eq
  have built : (Blockchain.bare c).buildUtxoStateForChain c (Blockchain.bare c).bestChain =
      .ok (applyTransaction c Blockchain.genesisTx ∅ 0) := by
    change [(Blockchain.bare c).genesisHash].foldlM _ ∅ = _
    simp [Blockchain.applyStored,genesis,genesis_applies]
  change (Blockchain.bare c).buildUtxoStateForChain c (Blockchain.bare c).bestChain = _
  simp only [Blockchain.new,built]

structure Valid (c : Crates) (s : Blockchain) : Prop where
  keyed : ∀ k b, s.getBlock k = some b → b.hash c = k
  headers : ∀ k, s.headers.lookup k = (s.getBlock k).map Block.header
  rooted : s.genesisHash = (Blockchain.createGenesisBlock c).hash c
  genesis : s.getBlock s.genesisHash = some (Blockchain.createGenesisBlock c)
  bootstrap : s.bootstrapUtxos = ∅
  sealed : ∀ k b, s.getBlock k = some b → k ≠ s.genesisHash → b.Sealed c
  tip : ∃ tip b, Branch s tip s.bestChain ∧ s.getBlock tip = some b ∧ s.currentHeight = b.header.height
  replay : s.buildUtxoStateForChain c s.bestChain = .ok s.utxoSet

theorem new_valid (c : Crates) : Valid c (.new c) := by
  have genesis : (Blockchain.new c).getBlock (Blockchain.new c).genesisHash =
      some (Blockchain.createGenesisBlock c) := by rw [getBlock_new,if_pos rfl]
  have link : (Blockchain.new c).parentLink (Blockchain.new c).genesisHash = some .zero := by
    simp [Blockchain.parentLink,genesis,Blockchain.createGenesisBlock,Block.withBits]
  refine ⟨?_,?_,rfl,genesis,rfl,?_,⟨_,_,.root link,genesis,rfl⟩,new_replays c⟩
  · intro k b stored
    rw [getBlock_new] at stored
    split at stored
    · rename_i equal; cases stored; exact equal.symm
    · cases stored
  · intro k
    rw [getBlock_new]
    split
    · rename_i equal; subst equal; exact Finmap.lookup_singleton_eq
    · rename_i other
      exact Finmap.lookup_eq_none.mpr fun member => other ((Finmap.mem_singleton _ _ _).mp member)
  · intro k b stored other
    rw [getBlock_new,if_neg other] at stored
    cases stored

theorem store_valid (valid : Valid c s) (admitted : Admitted c s block) : Valid c (s.store c block) := by
  have grows := store_grows (c := c) admitted.fresh
  obtain ⟨tip,b,branch,stored,height⟩ := valid.tip
  refine ⟨?_,?_,valid.rooted,grows.blocks _ _ valid.genesis,valid.bootstrap,?_,
    ⟨tip,b,branch_grows grows branch,grows.blocks _ _ stored,height⟩,?_⟩
  · intro k b stored
    rcases store_stored stored with old | ⟨rfl,rfl⟩
    · exact valid.keyed k b old
    · rfl
  · intro k
    by_cases equal : k = block.hash c
    · subst equal; rw [getBlock_store_self]; exact Finmap.lookup_insert _
    · rw [getBlock_store_ne equal,← valid.headers]; exact Finmap.lookup_insert_of_ne _ equal
  · intro k b stored other
    rcases store_stored stored with old | ⟨rfl,rfl⟩
    · exact valid.sealed k b old other
    · exact ((Block.validate_exact _ _ _).mp admitted.checked).2
  · exact (replay_grows grows (branch_stored branch)).trans valid.replay

theorem adopt_valid (valid : Valid c s) (stored : s.getBlock (block.hash c) = some block)
    (branch : Branch s (block.hash c) chain) (built : s.buildUtxoStateForChain c chain = .ok ledger) :
    Valid c (adopt s block chain ledger) :=
  ⟨valid.keyed,valid.headers,valid.rooted,valid.genesis,valid.bootstrap,valid.sealed,
    ⟨_,block,branch,stored,rfl⟩,built⟩

theorem step_valid (valid : Valid c s) (step : Step c s block next answer) : Valid c next := by
  cases step with
  | known | orphan | refused => exact valid
  | adrift admitted | invalid admitted | kept admitted => exact store_valid valid admitted
  | adopted admitted branch built => exact adopt_valid (store_valid valid admitted) getBlock_store_self branch built

theorem reached_valid (reached : Reached c meets s) : Valid c s := by
  obtain ⟨calls,path⟩ := reached
  exact Runs.run_invariant (new_valid c) (fun valid _ ran => step_valid valid (addBlock_sound ran)) path

theorem new_reached (c : Crates) : Reachable c (.new c) := ⟨[],.nil⟩

theorem step_length (step : Step c s block next answer) : s.bestChain.length ≤ next.bestChain.length := by
  cases step with
  | known | orphan | refused | adrift | invalid | kept => exact Nat.le_refl _
  | adopted _ _ _ longer => exact Nat.le_of_lt longer

theorem run_length (path : Runs.Run (Blockchain.addBlock c) meets s calls next) :
    s.bestChain.length ≤ next.bestChain.length :=
  Runs.run_relation (r := fun s next => s.bestChain.length ≤ next.bestChain.length) (fun _ => Nat.le_refl _)
    (fun one two => Nat.le_trans one two) (fun _ ran => step_length (addBlock_sound ran)) path

theorem admitted_away (valid : Valid c s) (admitted : Admitted c s block) : block.hash c ≠ s.genesisHash :=
  fun equal => admitted.fresh (mem_blocks.mpr ⟨_,equal ▸ valid.genesis⟩)

theorem store_link : (s.store c block).parentLink (block.hash c) = some block.header.previousBlockHash := by
  rw [Blockchain.parentLink,getBlock_store_self]
  rfl

theorem store_branch (valid : Valid c s) (admitted : Admitted c s block)
    (branch : Branch s block.header.previousBlockHash chain) :
    Branch (s.store c block) (block.hash c) (chain ++ [block.hash c]) := by
  have away : block.hash c ≠ s.genesisHash := admitted_away valid admitted
  exact .link store_link away (branch_grows (store_grows admitted.fresh) branch)

-- A new block never replaces a block of the branch below it.
theorem branch_below (valid : Valid c s) (admitted : Admitted c s block)
    (branch : Branch (s.store c block) (block.hash c) chain) :
    ∃ front, Branch s block.header.previousBlockHash front ∧ chain = front ++ [block.hash c] := by
  have away : block.hash c ≠ s.genesisHash := admitted_away valid admitted
  obtain ⟨front,below,rfl⟩ := branch.unlink store_link away
  refine ⟨front,below.restrict fun k member => ?_,rfl⟩
  have other : k ≠ block.hash c := fun equal =>
    (List.nodup_append.mp branch.nodup).2.2 k member _ (List.mem_singleton_self _) equal
  rw [Blockchain.parentLink,Blockchain.parentLink,getBlock_store_ne other]

-- Where every stored block follows its stored parent, the length of a branch
-- gives the height of its tip.
theorem branch_height (valid : Valid c s) (branch : Branch s tip chain)
    (follows : ∀ k b p, s.getBlock k = some b → k ≠ s.genesisHash → s.getBlock b.header.previousBlockHash = some p →
      b.Follows c p) : ∃ b, s.getBlock tip = some b ∧ b.header.height = UInt64.ofNat (chain.length - 1) := by
  induction branch using Walk.rootedRec with
  | base => exact ⟨_,valid.genesis,rfl⟩
  | @link h up path stored ne rest ih =>
    obtain ⟨b,here,rfl⟩ := Option.map_eq_some_iff.mp stored
    obtain ⟨p,parent,height⟩ := ih
    refine ⟨b,here,?_⟩
    have positive := List.length_pos_iff.mpr rest.ne_nil
    rw [(follows h b p here ne parent).1,height,List.length_append,List.length_singleton,Nat.add_sub_cancel]
    have split : path.length = path.length - 1 + 1 := by omega
    rw [split,UInt64.ofNat_add]
    rfl

-- Nothing is stored but the genesis block and what was delivered.
theorem run_stored (path : Runs.Run (Blockchain.addBlock c) meets (.new c) calls s) :
    ∀ k b, s.getBlock k = some b → b = Blockchain.createGenesisBlock c ∨ b ∈ calls.map Prod.fst := by
  induction path with
  | nil =>
    intro k b stored
    rw [getBlock_new] at stored
    split at stored
    · exact .inl (Option.some.inj stored).symm
    · cases stored
  | step _ _ ran ih =>
    intro k b stored
    rw [List.map_append,List.mem_append]
    rcases step_stored (addBlock_sound ran) stored with old | ⟨_,_,rfl⟩
    · exact (ih k b old).imp_right .inl
    · exact .inr (.inr (by simp))

-- What holds of the genesis chain and of every chain that a call adopts holds
-- of the best chain.
theorem reached_best {motive : Blockchain → List Digest → Prop} (genesis : motive (.new c) (Blockchain.new c).bestChain)
    (stable : ∀ {s next chain}, Grows s next → Stored s chain → motive s chain → motive next chain)
    (adopts : ∀ s block chain, meets s block → Adopts c s block chain → motive (s.store c block) chain)
    (reached : Reached c meets s) : motive s s.bestChain := by
  obtain ⟨calls,path⟩ := reached
  have both : Valid c s ∧ motive s s.bestChain := by
    refine Runs.run_invariant (motive := fun s => Valid c s ∧ motive s s.bestChain) ⟨new_valid c,genesis⟩ ?_ path
    intro s block next answer both allowed ran
    rcases both with ⟨valid,best⟩
    have step := addBlock_sound ran
    refine ⟨step_valid valid step,?_⟩
    rcases step_adopts step with ⟨chain,ledger,adopted,rfl⟩ | ⟨_,same⟩
    · have grows : Grows (s.store c block) (adopt (s.store c block) block chain ledger) :=
        ⟨fun _ _ stored => stored,rfl,rfl⟩
      exact stable grows (branch_stored (path_branch.mp adopted.path)) (adopts s block chain allowed adopted)
    · obtain ⟨_,_,branch,_,_⟩ := valid.tip
      rw [same]
      exact stable (step_grows step) (branch_stored branch) best
  exact both.2

-- Consecutive blocks of a chain: the later one names the earlier one and
-- passed the two header checks that need no parent.
def Extends (c : Crates) (s : Blockchain) (earlier later : Digest) : Prop :=
  ∃ b, s.blocks.lookup later = some b ∧ b.header.previousBlockHash = earlier ∧
    b.header.merkleRoot = Block.calculateMerkleRoot c b.transactions ∧
    b.hashValue c ≤ BlindHash.targetFromBits b.header.bits

theorem branch_extends (valid : Valid c s) (branch : Branch s tip chain) : chain.IsChain (Extends c s) := by
  apply (Walk.links branch).imp
  rintro earlier later ⟨link,notRoot⟩
  obtain ⟨b,stored,names⟩ := Option.map_eq_some_iff.mp link
  have checks := valid.sealed later b stored notRoot
  exact ⟨b,stored,names,checks.merkle,checks.work⟩

def Acyclic (s : Blockchain) : Prop := ∀ k, ¬ Relation.TransGen (fun up k => s.parentLink k = some up) k k

theorem addBlock_ends (ended : ∃ r, (s.store c block).pathToGenesis (block.hash c) = some r) :
    ∃ next answer, s.addBlock c block = some (next,answer) := by
  obtain ⟨r,path⟩ := ended
  unfold Blockchain.addBlock
  dsimp only
  split
  · exact ⟨_,_,rfl⟩
  · split
    · exact ⟨_,_,rfl⟩
    · split
      · exact ⟨_,_,rfl⟩
      · rw [path]
        cases r with
        | none => exact ⟨_,_,rfl⟩
        | some chain =>
          dsimp only
          split
          · exact ⟨_,_,rfl⟩
          · split
            · exact ⟨_,_,rfl⟩
            · exact ⟨_,_,rfl⟩

theorem addBlock_returns (acyclic : Acyclic (s.store c block)) :
    ∃ next answer, s.addBlock c block = some (next,answer) :=
  addBlock_ends (chase_returns (fun _ => link_stored) acyclic)

theorem reachable_chain_state (reached : Reachable c s) :
    (∀ k b, s.blocks.lookup k = some b → b.hash c = k ∧ s.headers.lookup k = some b.header) ∧
    s.bestChain ≠ [] ∧ s.bestChain.Nodup ∧ s.bestChain.head? = some s.genesisHash ∧
    s.bestChain.IsChain (Extends c s) ∧
    (∃ tip b, s.bestChain.getLast? = some tip ∧ s.blocks.lookup tip = some b ∧ s.currentHeight = b.header.height) ∧
    s.buildUtxoStateForChain c s.bestChain = .ok s.utxoSet ∧
    (∀ block, Acyclic (s.store c block) → ∃ next answer, s.addBlock c block = some (next,answer)) ∧
    ∀ calls next, Runs.Run (Blockchain.addBlock c) (fun _ _ => True) s calls next →
      s.bestChain.length ≤ next.bestChain.length := by
  have valid := reached_valid reached
  obtain ⟨tip,b,branch,stored,height⟩ := valid.tip
  refine ⟨?_,branch.ne_nil,branch.nodup,branch.head,branch_extends valid branch,
    ⟨tip,b,branch.last,stored,height⟩,valid.replay,fun _ => addBlock_returns,fun _ _ => run_length⟩
  intro k b stored
  exact ⟨valid.keyed k b stored,by rw [valid.headers,show s.getBlock k = some b from stored]; rfl⟩

def firstBlock : Block := blockOn genesisState.genesisHash 1 [createCoinbaseTransaction 1 100 [1]]

theorem firstBlock_accepted : ∃ s, genesisState.addBlock reference firstBlock = some (s,.ok ()) ∧
    s.bestChain.length = 2 := by
  have ran : (genesisState.addBlock reference firstBlock).map (fun pair => (pair.2,pair.1.bestChain.length)) =
      some (.ok (),2) := by decide +kernel
  obtain ⟨⟨s,answer⟩,step,equal⟩ := Option.map_eq_some_iff.mp ran
  simp only [Prod.mk.injEq] at equal
  exact ⟨s,by rw [step,equal.1],equal.2⟩

-- `heirBlock` makes the branch of `rivalBlock` the best one.
theorem reachable_chain_state_fork : ∃ s, Reachable reference s ∧ (s.getBlock (firstBlock.hash reference)).isSome ∧
    s.bestChain = [genesisState.genesisHash,rivalBlock.hash reference,heirBlock.hash reference] ∧
    s.bestChain.IsChain (Extends reference s) ∧ s.buildUtxoStateForChain reference s.bestChain = .ok s.utxoSet := by
  have fed : (Runs.feed (Blockchain.addBlock reference) genesisState [firstBlock,rivalBlock,heirBlock]).map (fun pair =>
      (decide ((pair.1.getBlock (firstBlock.hash reference)).isSome),pair.1.bestChain)) =
      some (true,[genesisState.genesisHash,rivalBlock.hash reference,heirBlock.hash reference]) := by decide +kernel
  obtain ⟨⟨s,answers⟩,ran,equal⟩ := Option.map_eq_some_iff.mp fed
  obtain ⟨kept,chain⟩ := Prod.mk.inj equal
  have reached : Reachable reference s := ⟨_,(Runs.feed_run ran).1⟩
  obtain ⟨_,_,_,_,linked,_,replayed,_⟩ := reachable_chain_state reached
  exact ⟨s,reached,of_decide_eq_true kept,chain,linked,replayed⟩

end BlindEye.ChainState
