import BlindEye.RootedState
import BlindEye.Sync

namespace BlindEye.SyncConvergence
open AddBlock ChainState ParentWalk RootedState Sync

variable {c : Crates} {mine peer s next : Blockchain} {block : Block} {chain : List Digest}
  {i j n : Nat}

-- Blocks that the two nodes store under one hash have one header.
def SameHeaders (s peer : Blockchain) : Prop :=
  ∀ k x y, s.getBlock k = some x → peer.getBlock k = some y → x.header = y.header

-- The blocks of both nodes, with the node's own where both store one.
def merged (mine peer : Blockchain) : Blockchain := { mine with blocks := mine.blocks ∪ peer.blocks }

-- The node stores the block of the peer's best chain at its own height, and the
-- peer's best chain replays with the bodies that the node has for its blocks.
def Meets (c : Crates) (mine peer : Blockchain) : Prop :=
  ∃ k, peer.bestChain[mine.currentHeight.toNat]? = some k ∧ k ∈ mine.blocks ∧
    ∃ ledger, (merged mine peer).buildUtxoStateForChain c peer.bestChain = .ok ledger

theorem merged_own (stored : mine.getBlock k = some b) : (merged mine peer).getBlock k = some b :=
  (Finmap.lookup_union_left (mem_blocks.mpr ⟨b,stored⟩)).trans stored

theorem merged_other (missing : k ∉ mine.blocks) : (merged mine peer).getBlock k = peer.getBlock k :=
  Finmap.lookup_union_right missing

-- A branch of the peer whose tip is stored here is a branch here.
theorem branch_shared (rooted : Rooted c s) (same : SameHeaders s peer) (genesis : peer.genesisHash = s.genesisHash)
    (branch : Branch peer tip chain) (stored : tip ∈ s.blocks) : Branch s tip chain := by
  induction branch using Walk.rootedRec with
  | base =>
    obtain ⟨up,link⟩ : ∃ up, s.parentLink s.genesisHash = some up := by
      rw [Blockchain.parentLink,rooted.valid.genesis]
      exact ⟨_,rfl⟩
    rw [genesis]
    exact .root link
  | @link h up path link ne rest ih =>
    obtain ⟨y,there,rfl⟩ := Option.map_eq_some_iff.mp link
    obtain ⟨x,here⟩ := mem_blocks.mp stored
    have header := same h x y here there
    have link' : s.parentLink h = some y.header.previousBlockHash := by
      rw [Blockchain.parentLink,here,← header]
      rfl
    have ne' : h ≠ s.genesisHash := genesis ▸ ne
    obtain ⟨p,parent,_⟩ := rooted.follows h x here ne'
    rw [header] at parent
    exact .link link' ne' (ih (mem_blocks.mpr ⟨p,parent⟩))

theorem filter_drop {α : Type} (f : α → Nat) (first offset : Nat) (items : List α)
    (indexed : ∀ i a, items[i]? = some a → f a = offset + i) :
    items.filter (fun a => decide (first ≤ f a)) = items.drop (first - offset) := by
  induction items generalizing offset with
  | nil => simp
  | cons a rest ih =>
    have here := indexed 0 a rfl
    have later := ih (offset + 1) fun i b found => by
      rw [indexed (i + 1) b found]
      omega
    by_cases inside : first ≤ f a
    · have all : first - offset = 0 := by omega
      have all' : first - (offset + 1) = 0 := by omega
      rw [all'] at later
      rw [List.filter_cons_of_pos (by simpa using inside),later,all]
      rfl
    · have split : first - offset = first - (offset + 1) + 1 := by omega
      rw [List.filter_cons_of_neg (by simpa using inside),later,split]
      rfl

section
variable (peerRooted : Rooted c peer) (few : peer.bestChain.length ≤ 2^64)
include peerRooted

-- The blocks of the peer's best chain.
def bestBlocks (peer : Blockchain) : List Block := peer.bestChain.filterMap peer.getBlock

theorem bestBlocks_hash : (bestBlocks peer).map (Block.hash c) = peer.bestChain := by
  obtain ⟨_,_,branch,_,_⟩ := peerRooted.valid.tip
  have stored := branch_stored branch
  unfold bestBlocks
  generalize peer.bestChain = chain at stored
  induction chain with
  | nil => rfl
  | cons k rest ih =>
    obtain ⟨b,found⟩ := stored k List.mem_cons_self
    rw [List.filterMap_cons_some found,List.map_cons,peerRooted.valid.keyed k b found,
      ih fun other member => stored other (List.mem_cons_of_mem _ member)]

theorem bestBlocks_stored (member : block ∈ bestBlocks peer) : peer.getBlock (block.hash c) = some block := by
  obtain ⟨k,_,found⟩ := List.mem_filterMap.mp member
  rw [peerRooted.valid.keyed k block found,found]

theorem bestBlocks_index (found : (bestBlocks peer)[i]? = some block) :
    peer.bestChain[i]? = some (block.hash c) := by
  rw [← bestBlocks_hash peerRooted,List.getElem?_map,found]
  rfl

include few in
theorem bestBlocks_height (found : (bestBlocks peer)[i]? = some block) : block.header.height.toNat = i := by
  obtain ⟨_,_,branch,_,_⟩ := peerRooted.valid.tip
  obtain ⟨b',stored,height⟩ := rooted_index peerRooted branch few (bestBlocks_index peerRooted found)
  cases Option.some.inj ((bestBlocks_stored peerRooted (List.mem_of_getElem? found)).symm.trans stored)
  exact height

include few in
theorem served_blocks (first : UInt64) (count : UInt32) : Node.blocksFromHeight peer first count =
    ((bestBlocks peer).drop first.toNat).take count.toNat := by
  have dropped := filter_drop (fun block => block.header.height.toNat) first.toNat 0 (bestBlocks peer)
    fun i block found => by rw [bestBlocks_height peerRooted few found,Nat.zero_add]
  rw [Nat.sub_zero] at dropped
  rw [← dropped]
  rfl

theorem bestBlocks_tip : ∃ tip, Branch peer tip peer.bestChain := by
  obtain ⟨tip,_,branch,_,_⟩ := peerRooted.valid.tip
  exact ⟨tip,branch⟩

-- Behind the first block, each block of the peer's best chain is a child of the
-- one before it.
theorem bestBlocks_behind (found : (bestBlocks peer)[i + 1]? = some block) :
    block.hash c ≠ peer.genesisHash ∧ Branch peer block.header.previousBlockHash (peer.bestChain.take (i + 1)) ∧
      peer.bestChain.take (i + 2) = peer.bestChain.take (i + 1) ++ [block.hash c] := by
  obtain ⟨tip,branch⟩ := bestBlocks_tip peerRooted
  have at_ := bestBlocks_index peerRooted found
  have upTo := branch.atIndex at_
  have stored := bestBlocks_stored peerRooted (List.mem_of_getElem? found)
  obtain ⟨inside,equal⟩ := List.getElem?_eq_some_iff.mp at_
  have grown : peer.bestChain.take (i + 2) = peer.bestChain.take (i + 1) ++ [block.hash c] := by
    rw [List.take_succ_eq_append_getElem inside,equal]
  have other : block.hash c ≠ peer.genesisHash := by
    intro root
    have first : peer.bestChain[0]? = some peer.genesisHash := by
      rw [← List.head?_eq_getElem?]
      exact branch.head
    rw [root] at at_
    exact Nat.succ_ne_zero i ((List.getElem?_inj inside branch.nodup).mp (at_.trans first.symm))
  have link : peer.parentLink (block.hash c) = some block.header.previousBlockHash := by
    rw [Blockchain.parentLink,stored]
    rfl
  obtain ⟨front,below,split⟩ := upTo.unlink link other
  rw [grown] at split
  obtain ⟨same,_⟩ := List.append_inj' split rfl
  exact ⟨other,same ▸ below,grown⟩

end

-- The node is on the peer's best chain, up to the height `j`.
structure Synced (c : Crates) (mine peer : Blockchain) (j : Nat) (s : Blockchain) : Prop where
  rooted : Rooted c s
  length : s.bestChain.length = j + 1
  held : ∀ k ∈ peer.bestChain.take (j + 1), k ∈ s.blocks ∧ s.getBlock k = (merged mine peer).getBlock k
  ahead : ∀ k ∈ peer.bestChain.drop (j + 1), k ∉ s.blocks
  grown : ∀ k ∈ mine.blocks, k ∈ s.blocks
  same : SameHeaders s peer
  genesis : peer.genesisHash = s.genesisHash
  bootstrap : (merged mine peer).bootstrapUtxos = s.bootstrapUtxos

theorem follows_header {p q : Block} (same : q.header = p.header) (follows : block.Follows c p) : block.Follows c q := by
  unfold Block.Follows Block.hash at follows ⊢
  rw [same]
  exact follows

theorem synced_admits (peerRooted : Rooted c peer) (synced : Synced c mine peer j s)
    (found : (bestBlocks peer)[j + 1]? = some block) : Admitted c s block ∧ ParentStored s block ∧
      Branch s block.header.previousBlockHash (peer.bestChain.take (j + 1)) := by
  obtain ⟨other,below,_⟩ := bestBlocks_behind peerRooted found
  have stored := bestBlocks_stored peerRooted (List.mem_of_getElem? found)
  have ahead : block.hash c ∈ peer.bestChain.drop (j + 1) := by
    apply List.mem_of_getElem? (i := 0)
    rw [List.getElem?_drop]
    exact bestBlocks_index peerRooted found
  have fresh := synced.ahead _ ahead
  have behind : block.header.previousBlockHash ∈ s.blocks := (synced.held _ (List.mem_of_getLast? below.last)).1
  obtain ⟨p,parent,follows⟩ := peerRooted.follows _ block stored other
  obtain ⟨q,here⟩ := mem_blocks.mp behind
  refine ⟨⟨fresh,fun _ => behind,?_⟩,behind,branch_shared synced.rooted synced.same synced.genesis below behind⟩
  rw [here]
  apply (Block.validate_exact _ _ _).mpr
  refine ⟨(Block.validateParent_some _ _ _).mpr ?_,peerRooted.valid.sealed _ block stored other⟩
  exact follows_header (synced.same _ q p here parent) follows

theorem synced_held (synced : Synced c mine peer j s) (stored : peer.getBlock (block.hash c) = some block)
    (fresh : block.hash c ∉ s.blocks) (member : k ∈ peer.bestChain.take (j + 1) ++ [block.hash c]) :
    k ∈ (s.store c block).blocks ∧ (s.store c block).getBlock k = (merged mine peer).getBlock k := by
  rcases List.mem_append.mp member with old | new
  · obtain ⟨here,equal⟩ := synced.held k old
    obtain ⟨b,found⟩ := mem_blocks.mp here
    have kept : (s.store c block).getBlock k = s.getBlock k := getBlock_store_ne fun same => fresh (same ▸ here)
    exact ⟨mem_blocks.mpr ⟨b,kept.trans found⟩,kept.trans equal⟩
  · obtain rfl := List.mem_singleton.mp new
    refine ⟨mem_blocks.mpr ⟨block,getBlock_store_self⟩,?_⟩
    rw [getBlock_store_self,merged_other fun old => fresh (synced.grown _ old),stored]

theorem synced_ahead (synced : Synced c mine peer j s) (distinct : peer.bestChain.Nodup)
    (at_ : peer.bestChain[j + 1]? = some (block.hash c)) (member : k ∈ peer.bestChain.drop (j + 2)) :
    k ∉ (s.store c block).blocks := by
  obtain ⟨inside,equal⟩ := List.getElem?_eq_some_iff.mp at_
  have rest : peer.bestChain.drop (j + 1) = block.hash c :: peer.bestChain.drop (j + 2) := by
    rw [List.drop_eq_getElem_cons inside,equal]
  have apart := distinct.sublist (List.drop_sublist (j + 1) _)
  rw [rest] at apart
  intro stored
  obtain ⟨b,here⟩ := mem_blocks.mp stored
  rcases store_stored here with old | ⟨rfl,_⟩
  · have further : k ∈ peer.bestChain.drop (j + 1) := by
      rw [rest]
      exact List.mem_cons_of_mem _ member
    exact synced.ahead k further (mem_blocks.mpr ⟨b,old⟩)
  · exact (List.nodup_cons.mp apart).1 member

theorem sameHeaders_step (same : SameHeaders s peer) (stored : peer.getBlock (block.hash c) = some block)
    (step : Step c s block next answer) : SameHeaders next peer := by
  intro k x y here there
  rcases step_stored step here with old | ⟨_,rfl,rfl⟩
  · exact same k x y old there
  · cases Option.some.inj (stored.symm.trans there)
    rfl

-- One block of the peer's best chain brings the node one block further.
theorem synced_step (peerRooted : Rooted c peer) (synced : Synced c mine peer j s)
    (replays : (merged mine peer).buildUtxoStateForChain c peer.bestChain = .ok ledger)
    (found : (bestBlocks peer)[j + 1]? = some block) :
    ∃ next, s.addBlock c block = some (next,.ok ()) ∧ Synced c mine peer (j + 1) next := by
  obtain ⟨admitted,behind,branch⟩ := synced_admits peerRooted synced found
  obtain ⟨_,_,grown⟩ := bestBlocks_behind peerRooted found
  obtain ⟨tip,best⟩ := bestBlocks_tip peerRooted
  have stored := bestBlocks_stored peerRooted (List.mem_of_getElem? found)
  have at_ := bestBlocks_index peerRooted found
  have held : ∀ k ∈ peer.bestChain.take (j + 2), k ∈ (s.store c block).blocks ∧
      (s.store c block).getBlock k = (merged mine peer).getBlock k := fun k member =>
    synced_held synced stored admitted.fresh (grown ▸ member)
  have whole := store_branch synced.rooted.valid admitted branch
  rw [← grown] at whole
  obtain ⟨ledger,front⟩ := replay_take (j + 2) replays
  have bootstrap : (s.store c block).bootstrapUtxos = (merged mine peer).bootstrapUtxos := synced.bootstrap.symm
  have built := (replay_congr bootstrap fun k member => (held k member).2).trans front
  have inside := (List.getElem?_eq_some_iff.mp at_).1
  have length : (peer.bestChain.take (j + 2)).length = j + 2 := List.length_take_of_le inside
  have longer : (peer.bestChain.take (j + 2)).length > s.bestChain.length := by
    rw [length,synced.length]
    exact Nat.lt_succ_self _
  have step : Step c s block _ (.ok ()) := .adopted admitted whole built longer
  refine ⟨_,addBlock_complete step,step_rooted synced.rooted behind step,length,held,?_,?_,
    sameHeaders_step synced.same stored step,synced.genesis,synced.bootstrap⟩
  · exact fun k member => synced_ahead synced best.nodup at_ member
  · intro k member
    obtain ⟨b,here⟩ := mem_blocks.mp (synced.grown k member)
    exact mem_blocks.mpr ⟨b,(store_grows admitted.fresh).blocks k b here⟩

theorem synced_import (peerRooted : Rooted c peer)
    (replays : (merged mine peer).buildUtxoStateForChain c peer.bestChain = .ok ledger)
    (synced : Synced c mine peer j s) (inside : j + n < peer.bestChain.length) :
    ∃ next, importBlocks c s (((bestBlocks peer).drop (j + 1)).take n) = some next ∧
      Synced c mine peer (j + n) next := by
  have count : (bestBlocks peer).length = peer.bestChain.length := by
    rw [← bestBlocks_hash peerRooted,List.length_map]
  induction n generalizing j s with
  | zero => exact ⟨s,rfl,synced⟩
  | succ n ih =>
    have here : j + 1 < (bestBlocks peer).length := by omega
    obtain ⟨middle,ran,synced'⟩ := synced_step peerRooted synced replays (List.getElem?_eq_getElem here)
    obtain ⟨next,rest,done⟩ := ih synced' (by omega)
    have sum : j + 1 + n = j + (n + 1) := by omega
    refine ⟨next,?_,sum ▸ done⟩
    rw [List.drop_eq_getElem_cons here,List.take_succ_cons,importBlocks,ran]
    exact rest

theorem synced_height (synced : Synced c mine peer j s) (few : j + 1 ≤ 2^64) : s.currentHeight.toNat = j := by
  rw [rooted_current synced.rooted (synced.length ▸ few),synced.length,Nat.add_sub_cancel]

-- What a round asks for, and what the peer answers.
theorem round_served (peerRooted : Rooted c peer) (few : peer.bestChain.length ≤ 2^64)
    (height : s.currentHeight.toNat = j) (behind : j + 1 < peer.bestChain.length) : round c peer s =
      importBlocks c s (((bestBlocks peer).drop (j + 1)).take (min (peer.bestChain.length - 1 - j) 100)) := by
  have top := rooted_current peerRooted few
  have higher : peer.currentHeight > s.currentHeight := by
    apply UInt64.lt_iff_toNat_lt.mpr
    rw [top,height]
    omega
  have first : (s.currentHeight + 1).toNat = j + 1 := by
    rw [UInt64.toNat_add,height]
    exact Nat.mod_eq_of_lt (Nat.lt_of_lt_of_le behind few)
  have count : (requestCount peer.currentHeight s.currentHeight).toNat = min (peer.bestChain.length - 1 - j) 100 := by
    unfold requestCount
    rw [top,height]
    apply UInt32.toNat_ofNat_of_lt'
    rw [UInt32.size]
    omega
  unfold Sync.round
  rw [if_pos higher,served_blocks peerRooted few,first,count]

theorem synced_round (peerRooted : Rooted c peer) (few : peer.bestChain.length ≤ 2^64)
    (replays : (merged mine peer).buildUtxoStateForChain c peer.bestChain = .ok ledger)
    (synced : Synced c mine peer j s) (behind : j + 1 < peer.bestChain.length) : ∃ next, round c peer s = some next ∧
      Synced c mine peer (j + min (peer.bestChain.length - 1 - j) 100) next := by
  rw [round_served peerRooted few (synced_height synced (by omega)) behind]
  exact synced_import peerRooted replays synced (by omega)

-- Every round but the last brings a hundred blocks.
theorem synced_rounds (peerRooted : Rooted c peer) (few : peer.bestChain.length ≤ 2^64)
    (replays : (merged mine peer).buildUtxoStateForChain c peer.bestChain = .ok ledger) :
    ∀ left j s, peer.bestChain.length - 1 - j ≤ left → j < peer.bestChain.length → Synced c mine peer j s →
      ∃ n next, rounds c peer n s = some next ∧ Synced c mine peer (peer.bestChain.length - 1) next := by
  intro left
  induction left with
  | zero =>
    intro j s near inside synced
    have last : peer.bestChain.length - 1 = j := by omega
    exact ⟨0,s,rfl,last ▸ synced⟩
  | succ left ih =>
    intro j s near inside synced
    by_cases behind : j + 1 < peer.bestChain.length
    · obtain ⟨middle,ran,synced'⟩ := synced_round peerRooted few replays synced behind
      obtain ⟨n,next,rest,done⟩ := ih _ middle (by omega) (by omega) synced'
      exact ⟨n + 1,next,by rw [rounds,ran]; exact rest,done⟩
    · have last : peer.bestChain.length - 1 = j := by omega
      exact ⟨0,s,rfl,last ▸ synced⟩

-- The blocks of the peer's best chain above the node's height are new to it,
-- since with them it would have a longer chain that replays.
theorem meets_synced (rooted : Rooted c mine) (peerRooted : Rooted c peer) (same : SameHeaders mine peer)
    (genesis : peer.genesisHash = mine.genesisHash) (length : mine.bestChain.length = j + 1)
    (replays : (merged mine peer).buildUtxoStateForChain c peer.bestChain = .ok ledger)
    (at_ : peer.bestChain[j]? = some k) (member : k ∈ mine.blocks) : Synced c mine peer j mine := by
  obtain ⟨tip,best⟩ := bestBlocks_tip peerRooted
  have shared : ∀ i k, peer.bestChain[i]? = some k → k ∈ mine.blocks → Branch mine k (peer.bestChain.take (i + 1)) :=
    fun i k found stored => branch_shared rooted same genesis (best.atIndex found) stored
  have below := shared j k at_ member
  refine ⟨rooted,length,?_,?_,fun _ stored => stored,same,genesis,rfl⟩
  · intro k' inside
    obtain ⟨b,stored⟩ := branch_stored below k' inside
    exact ⟨mem_blocks.mpr ⟨b,stored⟩,stored.trans (merged_own stored).symm⟩
  · intro k' ahead stored
    obtain ⟨i,found⟩ := List.mem_iff_getElem?.mp ahead
    rw [List.getElem?_drop] at found
    have branch := shared _ k' found stored
    obtain ⟨mid,first⟩ := replay_take (j + 1 + i + 1) replays
    have agree : ∀ k ∈ peer.bestChain.take (j + 1 + i + 1), mine.getBlock k = (merged mine peer).getBlock k := by
      intro k inside
      obtain ⟨b,here⟩ := branch_stored branch k inside
      exact here.trans (merged_own here).symm
    have bootstrap : mine.bootstrapUtxos = (merged mine peer).bootstrapUtxos := rfl
    have built := (replay_congr bootstrap agree).trans first
    have longest := rooted.longest _ _ _ branch built
    have inside := (List.getElem?_eq_some_iff.mp found).1
    rw [length,List.length_take_of_le (Nat.succ_le_of_lt inside)] at longest
    omega

-- The state after any number of the peer's blocks.
structure Imported (c : Crates) (mine peer s : Blockchain) : Prop where
  rooted : Rooted c s
  same : SameHeaders s peer
  genesis : peer.genesisHash = s.genesisHash
  bootstrap : (merged mine peer).bootstrapUtxos = s.bootstrapUtxos
  blocks : ∀ k b, s.getBlock k = some b → (merged mine peer).getBlock k = some b
  grown : ∀ k ∈ mine.blocks, k ∈ s.blocks
  best : s.bestChain = mine.bestChain ∨ ∃ i, s.bestChain = peer.bestChain.take (i + 1)

theorem imported_step (peerRooted : Rooted c peer) (imported : Imported c mine peer s)
    (found : (bestBlocks peer)[i]? = some block) (behind : ParentStored s block)
    (step : Step c s block next answer) : Imported c mine peer next := by
  have stored := bestBlocks_stored peerRooted (List.mem_of_getElem? found)
  have rooted := step_rooted imported.rooted behind step
  have grows := step_grows step
  have same := sameHeaders_step imported.same stored step
  have genesis := imported.genesis.trans grows.genesis.symm
  refine ⟨rooted,same,genesis,imported.bootstrap.trans grows.bootstrap.symm,?_,?_,?_⟩
  · intro k b here
    rcases step_stored step here with old | ⟨admitted,rfl,rfl⟩
    · exact imported.blocks k b old
    · rw [merged_other fun old => admitted.fresh (imported.grown _ old)]
      exact stored
  · intro k member
    obtain ⟨b,here⟩ := mem_blocks.mp (imported.grown k member)
    exact mem_blocks.mpr ⟨b,grows.blocks k b here⟩
  · rcases step_adopts step with ⟨chain,ledger,adopted,rfl⟩ | ⟨_,kept⟩
    · obtain ⟨tip,best⟩ := bestBlocks_tip peerRooted
      have there := best.atIndex (bestBlocks_index peerRooted found)
      have here := path_branch.mp adopted.path
      have own : block.hash c ∈ (adopt (s.store c block) block chain ledger).blocks :=
        mem_blocks.mpr ⟨block,getBlock_store_self⟩
      have shared := branch_shared rooted same genesis there own
      exact .inr ⟨i,here.unique shared⟩
    · rw [kept]
      exact imported.best

-- A block without its parent changes nothing.
theorem orphan_ignored (high : block.header.height > 0) (missing : ¬ ParentStored s block) :
    ∃ answer, s.addBlock c block = some (s,answer) := by
  by_cases known : block.hash c ∈ s.blocks
  · exact ⟨_,addBlock_complete (.known known)⟩
  · exact ⟨_,addBlock_complete (.orphan known high missing)⟩

theorem imported_run (peerRooted : Rooted c peer) (few : peer.bestChain.length ≤ 2^64) {blocks : List Block}
    (imported : Imported c mine peer s) (each : ∀ b ∈ blocks, ∃ i, (bestBlocks peer)[i + 1]? = some b)
    (ran : importBlocks c s blocks = some next) : Imported c mine peer next := by
  induction blocks generalizing s with
  | nil =>
    cases ran
    exact imported
  | cons block rest ih =>
    obtain ⟨i,found⟩ := each block List.mem_cons_self
    obtain ⟨⟨middle,answer⟩,first,later⟩ := Option.bind_eq_some_iff.mp ran
    apply ih _ (fun b member => each b (List.mem_cons_of_mem _ member)) later
    by_cases behind : ParentStored s block
    · exact imported_step peerRooted imported found behind (addBlock_sound first)
    · have high : block.header.height > 0 := by
        apply UInt64.lt_iff_toNat_lt.mpr
        rw [bestBlocks_height peerRooted few found]
        exact Nat.succ_pos i
      obtain ⟨_,ignored⟩ := orphan_ignored high behind
      cases Option.some.inj (first.symm.trans ignored)
      exact imported

theorem imported_rounds (peerRooted : Rooted c peer) (few : peer.bestChain.length ≤ 2^64)
    (imported : Imported c mine peer s) (ran : rounds c peer n s = some next) : Imported c mine peer next := by
  induction n generalizing s with
  | zero =>
    cases ran
    exact imported
  | succ n ih =>
    obtain ⟨middle,first,later⟩ := Option.bind_eq_some_iff.mp ran
    apply ih _ later
    unfold Sync.round at first
    split at first
    · rename_i higher
      rw [served_blocks peerRooted few] at first
      apply imported_run peerRooted few imported _ first
      intro b member
      obtain ⟨i,found⟩ := List.mem_iff_getElem?.mp (List.mem_of_mem_take member)
      rw [List.getElem?_drop] at found
      have above := UInt64.lt_iff_toNat_lt.mp higher
      have bound := peer.currentHeight.toNat_lt
      have start : (s.currentHeight + 1).toNat = s.currentHeight.toNat + 1 := by
        rw [UInt64.toNat_add]
        exact Nat.mod_eq_of_lt (by simp only [UInt64.reduceToNat]; omega)
      refine ⟨s.currentHeight.toNat + i,?_⟩
      have index : s.currentHeight.toNat + i + 1 = (s.currentHeight + 1).toNat + i := by omega
      rw [index]
      exact found
    · cases first
      exact imported

theorem import_ignored {blocks : List Block}
    (orphans : ∀ b ∈ blocks, b.header.height > 0 ∧ ¬ ParentStored s b) : importBlocks c s blocks = some s := by
  induction blocks with
  | nil => rfl
  | cons block rest ih =>
    obtain ⟨high,missing⟩ := orphans block List.mem_cons_self
    obtain ⟨answer,ignored⟩ := orphan_ignored (c := c) high missing
    rw [importBlocks,ignored]
    exact ih fun b member => orphans b (List.mem_cons_of_mem _ member)

-- Without the peer's block at its own height, the node takes none of the blocks
-- that it asks for.
theorem round_stuck (rooted : Rooted c mine) (peerRooted : Rooted c peer) (few : peer.bestChain.length ≤ 2^64)
    (same : SameHeaders mine peer) (genesis : peer.genesisHash = mine.genesisHash)
    (height : mine.currentHeight.toNat = j) (behind : j + 1 < peer.bestChain.length)
    (at_ : peer.bestChain[j]? = some k) (missing : k ∉ mine.blocks) : Sync.round c peer mine = some mine := by
  rw [round_served peerRooted few height behind]
  apply import_ignored
  intro b member
  obtain ⟨i,found⟩ := List.mem_iff_getElem?.mp (List.mem_of_mem_take member)
  rw [List.getElem?_drop] at found
  have index : j + 1 + i = j + i + 1 := by omega
  rw [index] at found
  constructor
  · apply UInt64.lt_iff_toNat_lt.mpr
    rw [bestBlocks_height peerRooted few found]
    exact Nat.succ_pos _
  · intro stored
    obtain ⟨_,below,_⟩ := bestBlocks_behind peerRooted found
    have shared := branch_shared rooted same genesis below stored
    have inside : k ∈ peer.bestChain.take (j + i + 1) := by
      apply List.mem_of_getElem? (i := j)
      rw [List.getElem?_take_of_lt (by omega)]
      exact at_
    obtain ⟨b',found'⟩ := branch_stored shared k inside
    exact missing (mem_blocks.mpr ⟨b',found'⟩)

theorem stuck_rounds (stuck : Sync.round c peer mine = some mine) : ∀ n, rounds c peer n mine = some mine := by
  intro n
  induction n with
  | zero => rfl
  | succ n ih =>
    rw [rounds,stuck]
    exact ih

theorem imported_replays (rooted : Rooted c mine) (peerRooted : Rooted c peer) (fewMine : mine.bestChain.length ≤ 2^64)
    (few : peer.bestChain.length ≤ 2^64) (behind : mine.currentHeight < peer.currentHeight)
    (imported : Imported c mine peer s) (equal : s.currentHeight = peer.currentHeight) :
    ∃ ledger, (merged mine peer).buildUtxoStateForChain c peer.bestChain = .ok ledger := by
  obtain ⟨_,_,branch,_,_⟩ := imported.rooted.valid.tip
  obtain ⟨_,best⟩ := bestBlocks_tip peerRooted
  have positive := List.length_pos_iff.mpr branch.ne_nil
  have positive' := List.length_pos_iff.mpr best.ne_nil
  have top := rooted_current peerRooted few
  have whole : s.bestChain = peer.bestChain := by
    rcases imported.best with own | ⟨i,taken⟩
    · have height := rooted_current imported.rooted (own ▸ fewMine)
      rw [own,← rooted_current rooted fewMine,equal] at height
      exact absurd behind (by rw [UInt64.toNat_inj.mp height]; exact UInt64.lt_irrefl _)
    · have short : s.bestChain.length ≤ peer.bestChain.length := by
        rw [taken]
        exact List.length_take_le' _ _
      have height := rooted_current imported.rooted (Nat.le_trans short few)
      rw [equal,top] at height
      have length : (peer.bestChain.take (i + 1)).length = s.bestChain.length := by rw [taken]
      rw [List.length_take] at length
      rw [taken]
      exact List.take_of_length_le (by omega)
  have agree : ∀ k ∈ peer.bestChain, s.getBlock k = (merged mine peer).getBlock k := by
    intro k member
    obtain ⟨b,stored⟩ := branch_stored branch k (whole ▸ member)
    rw [stored,imported.blocks k b stored]
  have replayed := imported.rooted.valid.replay
  rw [whole,replay_congr imported.bootstrap.symm agree] at replayed
  exact ⟨_,replayed⟩

theorem sync_converges_exact (left : Reached c ParentStored mine) (right : Reached c ParentStored peer)
    (fewMine : mine.bestChain.length ≤ 2^64) (few : peer.bestChain.length ≤ 2^64)
    (behind : mine.currentHeight < peer.currentHeight) (same : SameHeaders mine peer) :
    (∃ n final, rounds c peer n mine = some final ∧ final.currentHeight = peer.currentHeight) ↔ Meets c mine peer := by
  have rooted := reached_rooted left
  have peerRooted := reached_rooted right
  have genesis : peer.genesisHash = mine.genesisHash := peerRooted.valid.rooted.trans rooted.valid.rooted.symm
  have bootstrap : (merged mine peer).bootstrapUtxos = mine.bootstrapUtxos := rfl
  have height := rooted_current rooted fewMine
  have top := rooted_current peerRooted few
  have higher := UInt64.lt_iff_toNat_lt.mp behind
  have inside : mine.currentHeight.toNat < peer.bestChain.length := by omega
  have at_ := List.getElem?_eq_getElem inside
  constructor
  · intro converges
    obtain ⟨n,final,ran,equal⟩ := converges
    have start : Imported c mine peer mine :=
      ⟨rooted,same,genesis,bootstrap,fun _ _ => merged_own,fun _ stored => stored,.inl rfl⟩
    have done := imported_rounds peerRooted few start ran
    refine ⟨_,at_,?_,?_⟩
    · by_contra missing
      have stuck := round_stuck rooted peerRooted few same genesis rfl (by omega) at_ missing
      cases Option.some.inj (ran.symm.trans (stuck_rounds stuck n))
      rw [equal] at higher
      exact Nat.lt_irrefl _ higher
    · exact imported_replays rooted peerRooted fewMine few behind done equal
  · intro meets
    obtain ⟨k,found,member,ledger,replays⟩ := meets
    obtain ⟨tip,_,branch,_,_⟩ := rooted.valid.tip
    have positive := List.length_pos_iff.mpr branch.ne_nil
    have synced := meets_synced rooted peerRooted same genesis (by omega) replays found member
    obtain ⟨n,final,ran,done⟩ := synced_rounds peerRooted few replays _ _ mine (Nat.le_refl _) inside synced
    refine ⟨n,final,ran,UInt64.toNat_inj.mp ?_⟩
    rw [synced_height done (by omega),top]

-- Where the two nodes have one body for every hash, the peer's block at the
-- node's height is all that it takes.
theorem meets_same (peerRooted : Rooted c peer) (bootstrap : mine.bootstrapUtxos = peer.bootstrapUtxos)
    (same : ∀ k x y, mine.getBlock k = some x → peer.getBlock k = some y → x = y) :
    Meets c mine peer ↔ ∃ k, peer.bestChain[mine.currentHeight.toNat]? = some k ∧ k ∈ mine.blocks := by
  obtain ⟨_,best⟩ := bestBlocks_tip peerRooted
  have agree : ∀ k ∈ peer.bestChain, (merged mine peer).getBlock k = peer.getBlock k := by
    intro k member
    by_cases own : k ∈ mine.blocks
    · obtain ⟨x,here⟩ := mem_blocks.mp own
      obtain ⟨y,there⟩ := branch_stored best k member
      rw [merged_own here,there,same k x y here there]
    · exact merged_other own
  constructor
  · intro meets
    obtain ⟨k,found,member,_⟩ := meets
    exact ⟨k,found,member⟩
  · intro shared
    obtain ⟨k,found,member⟩ := shared
    have bootstrap' : (merged mine peer).bootstrapUtxos = peer.bootstrapUtxos := bootstrap
    have replays : (merged mine peer).buildUtxoStateForChain c peer.bestChain = .ok peer.utxoSet :=
      (replay_congr bootstrap' agree).trans peerRooted.valid.replay
    exact ⟨k,found,member,_,replays⟩

theorem sameHeaders_delivered (left : Runs.Run (Blockchain.addBlock c) ParentStored (.new c) calls mine)
    (right : Runs.Run (Blockchain.addBlock c) ParentStored (.new c) replies peer)
    (apart : ∀ x ∈ Blockchain.createGenesisBlock c :: calls.map Prod.fst,
      ∀ y ∈ Blockchain.createGenesisBlock c :: replies.map Prod.fst, x.hash c = y.hash c → x.header = y.header) :
    SameHeaders mine peer := by
  have valid := reached_valid ⟨calls,left⟩
  have valid' := reached_valid ⟨replies,right⟩
  intro k x y here there
  have first := run_stored (left.weaken fun _ _ _ => trivial) k x here
  have second := run_stored (right.weaken fun _ _ _ => trivial) k y there
  apply apart x (List.mem_cons.mpr first) y (List.mem_cons.mpr second)
  rw [valid.keyed k x here,valid'.keyed k y there]

-- Delivery of blocks that each come behind their parent.
def behindParents (s : Blockchain) (block : Block) : Option (Blockchain × Answer) :=
  if ParentStored s block then s.addBlock reference block else none

def forkPeer : List Block := [rivalBlock,heirBlock]

-- The two forks are fed parents first, with no two headers under one hash.
theorem behindParents_reached (fed : Runs.feed behindParents genesisState blocks = some (mine,answers))
    (fed' : Runs.feed behindParents genesisState others = some (peer,replies))
    (apart : ∀ x ∈ Blockchain.createGenesisBlock reference :: blocks,
      ∀ y ∈ Blockchain.createGenesisBlock reference :: others, x.hash reference = y.hash reference → x.header = y.header) :
    Reached reference ParentStored mine ∧ Reached reference ParentStored peer ∧ SameHeaders mine peer := by
  obtain ⟨run,given⟩ := Runs.feed_run fed
  obtain ⟨run',given'⟩ := Runs.feed_run fed'
  refine ⟨⟨_,run.guarded⟩,⟨_,run'.guarded⟩,sameHeaders_delivered run.guarded run'.guarded ?_⟩
  rw [List.map_fst_zip (Nat.le_of_eq given),List.map_fst_zip (Nat.le_of_eq given')]
  exact apart

-- The node has a block of its own at height 1 and the peer's as well.
theorem sync_converges_exact_sideBranch : ∃ mine peer, Reached reference ParentStored mine ∧
    Reached reference ParentStored peer ∧ mine.currentHeight < peer.currentHeight ∧
    mine.bestChain ≠ peer.bestChain.take 2 ∧
    ∃ n final, rounds reference peer n mine = some final ∧ final.currentHeight = peer.currentHeight := by
  obtain ⟨⟨mine,answers⟩,fed,rest⟩ : ∃ run, Runs.feed behindParents genesisState [firstBlock,rivalBlock] =
      some run ∧ ((Runs.feed behindParents genesisState forkPeer).map fun peer =>
        (decide (run.1.bestChain.length = 2 ∧ peer.1.bestChain.length = 3),
          decide (run.1.currentHeight = 1 ∧ run.1.currentHeight < peer.1.currentHeight),
          decide (run.1.bestChain ≠ peer.1.bestChain.take 2),
          decide (∃ k ∈ peer.1.bestChain[1]?, k ∈ run.1.blocks),
          decide ((merged run.1 peer.1).buildUtxoStateForChain reference peer.1.bestChain = .ok peer.1.utxoSet))) =
        some (true,true,true,true,true) := Option.bind_eq_some_iff.mp (by decide +kernel)
  obtain ⟨⟨peer,replies⟩,fed',facts⟩ := Option.map_eq_some_iff.mp rest
  simp only [Prod.mk.injEq,decide_eq_true_eq] at facts
  obtain ⟨⟨length,length'⟩,⟨one,behind⟩,apart,⟨k,at_,member⟩,replays⟩ := facts
  obtain ⟨left,right,same⟩ := behindParents_reached fed fed' (by decide +kernel)
  have meets : Meets reference mine peer := ⟨k,by rw [one]; exact at_,member,_,replays⟩
  have converges := (sync_converges_exact left right (by rw [length]; decide) (by rw [length']; decide) behind same).mpr meets
  exact ⟨mine,peer,left,right,behind,apart,converges⟩

-- The node's own block at height 1 is all that keeps it from the peer's block
-- there: the first request already starts behind it.
theorem split_permanent : ∃ mine peer, Reached reference ParentStored mine ∧
    Reached reference ParentStored peer ∧ mine.currentHeight < peer.currentHeight ∧ SameHeaders mine peer ∧
    ¬ ∃ n final, rounds reference peer n mine = some final ∧ final.currentHeight = peer.currentHeight := by
  obtain ⟨⟨mine,answers⟩,fed,rest⟩ : ∃ run, Runs.feed behindParents genesisState [firstBlock] = some run ∧
      ((Runs.feed behindParents genesisState forkPeer).map fun peer =>
        (decide (run.1.currentHeight < peer.1.currentHeight),
          decide (Sync.round reference peer.1 run.1 = some run.1))) = some (true,true) :=
    Option.bind_eq_some_iff.mp (by decide +kernel)
  obtain ⟨⟨peer,replies⟩,fed',facts⟩ := Option.map_eq_some_iff.mp rest
  simp only [Prod.mk.injEq,decide_eq_true_eq] at facts
  obtain ⟨behind,stuck⟩ := facts
  obtain ⟨left,right,same⟩ := behindParents_reached fed fed' (by decide +kernel)
  refine ⟨mine,peer,left,right,behind,same,?_⟩
  intro converges
  obtain ⟨n,final,ran,equal⟩ := converges
  cases Option.some.inj (ran.symm.trans (stuck_rounds stuck n))
  rw [equal] at behind
  exact UInt64.lt_irrefl _ behind

end BlindEye.SyncConvergence
