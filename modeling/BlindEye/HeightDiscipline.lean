import BlindEye.ChainState

namespace BlindEye.HeightDiscipline
open AddBlock ChainState ParentWalk

variable {c : Crates} {s next : Blockchain} {block : Block} {chain : List Digest}

def TimeOrdered (s : Blockchain) (earlier later : Digest) : Prop :=
  ∃ x y, s.getBlock earlier = some x ∧ s.getBlock later = some y ∧ x.header.timestamp ≤ y.header.timestamp

def HeightsFrom (s : Blockchain) (chain : List Digest) : Prop :=
  ∀ i k, chain[i]? = some k → ∃ b, s.getBlock k = some b ∧ b.header.height.toNat = i

structure Disciplined (s : Blockchain) : Prop where
  heights : HeightsFrom s s.bestChain
  current : s.currentHeight.toNat = s.bestChain.length - 1
  times : s.bestChain.IsChain (TimeOrdered s)

def OneGenesis (s : Blockchain) (chain : List Digest) : Prop :=
  ∀ k ∈ chain, ∀ b, s.getBlock k = some b → b.header.height = 0 → k = s.genesisHash

instance : Decidable (OneGenesis s chain) :=
  inferInstanceAs (Decidable (∀ k ∈ chain, ∀ b ∈ s.getBlock k, b.header.height = 0 → k = s.genesisHash))

-- A chain that becomes the best one has no block of height 0 but genesis. A
-- height that wraps round is 0 as well.
def NoSecondGenesis (c : Crates) (s : Blockchain) (block : Block) : Prop :=
  ∀ chain, Adopts c s block chain → OneGenesis (s.store c block) chain

instance : Decidable (NoSecondGenesis c s block) :=
  inferInstanceAs (Decidable (∀ chain, Adopts c s block chain → OneGenesis (s.store c block) chain))

-- Every stored block of another height was checked against its parent, and the
-- parent is still there.
def Linked (c : Crates) (s : Blockchain) : Prop :=
  ∀ k b, s.getBlock k = some b → b.header.height ≠ 0 →
    ∃ p, s.getBlock b.header.previousBlockHash = some p ∧ b.Follows c p

theorem new_linked (c : Crates) : Linked c (.new c) := by
  intro k b stored high
  rw [getBlock_new] at stored
  split at stored
  · cases stored
    exact absurd rfl high
  · cases stored

theorem step_linked (linked : Linked c s) (step : Step c s block next answer) : Linked c next := by
  have grows := step_grows step
  intro k b stored high
  rcases step_stored step stored with old | ⟨admitted,_,rfl⟩
  · obtain ⟨p,parent,follows⟩ := linked k b old high
    exact ⟨p,grows.blocks _ _ parent,follows⟩
  · obtain ⟨p,parent⟩ := mem_blocks.mp (admitted.parent (UInt64.pos_iff_ne_zero.mpr high))
    have checked := ((Block.validate_exact _ _ _).mp admitted.checked).1
    rw [parent,Block.validateParent_some] at checked
    exact ⟨p,grows.blocks _ _ parent,checked⟩

theorem reached_linked (reached : Reached c meets s) : Linked c s := by
  obtain ⟨calls,path⟩ := reached
  exact Runs.run_invariant (new_linked c) (fun linked _ ran => step_linked linked (addBlock_sound ran)) path

theorem follows_height (high : block.header.height ≠ 0) (follows : block.Follows c p) :
    block.header.height.toNat = p.header.height.toNat + 1 := by
  have wraps := UInt64.toNat_add p.header.height 1
  have bound := p.header.height.toNat_lt
  have nonzero : block.header.height.toNat ≠ 0 := fun zero => high (UInt64.toNat_inj.mp zero)
  rw [follows.1] at nonzero ⊢
  rw [wraps] at nonzero ⊢
  simp only [UInt64.reduceToNat] at nonzero ⊢
  omega

theorem OneGenesis.high (single : OneGenesis s chain) (member : k ∈ chain) (stored : s.getBlock k = some b)
    (other : k ≠ s.genesisHash) : b.header.height ≠ 0 := fun zero => other (single k member b stored zero)

theorem OneGenesis.grows (single : OneGenesis s chain) (grows : Grows s next) (stored : Stored s chain) :
    OneGenesis next chain := by
  intro k member b found zero
  rw [grows.same stored k member] at found
  rw [grows.genesis]
  exact single k member b found zero

theorem branch_heights (valid : Valid c s) (linked : Linked c s) (branch : Branch s tip chain)
    (single : OneGenesis s chain) : HeightsFrom s chain := by
  induction branch using Walk.rootedRec with
  | base stored =>
    intro i k at_
    obtain ⟨rfl,rfl⟩ : i = 0 ∧ s.genesisHash = k := by cases i <;> simp_all
    exact ⟨_,valid.genesis,rfl⟩
  | @link h up path stored ne rest ih =>
    have before := ih fun k member => single k (List.mem_append_left _ member)
    intro i k at_
    rcases Nat.lt_trichotomy i path.length with inside | last | outside
    · rw [List.getElem?_append_left inside] at at_
      exact before i k at_
    · subst last
      obtain rfl : h = k := by simpa using at_
      obtain ⟨b,here,names⟩ := Option.map_eq_some_iff.mp stored
      have high := single.high (by simp) here ne
      obtain ⟨p,parent,follows⟩ := linked h b here high
      have below : path[path.length - 1]? = some up := by
        rw [← List.getLast?_eq_getElem?]
        exact rest.last
      obtain ⟨p',parent',height⟩ := before _ _ below
      rw [names] at parent
      cases Option.some.inj (parent.symm.trans parent')
      have positive := List.length_pos_iff.mpr rest.ne_nil
      have next := follows_height high follows
      exact ⟨b,here,by omega⟩
    · rw [List.getElem?_eq_none (by simp only [List.length_append,List.length_singleton]; omega)] at at_
      cases at_

theorem branch_times (linked : Linked c s) (branch : Branch s tip chain) (single : OneGenesis s chain) :
    chain.IsChain (TimeOrdered s) := by
  apply (Walk.links branch).imp_of_mem_imp
  intro earlier later _ member ⟨link,notRoot⟩
  obtain ⟨b,stored,rfl⟩ := Option.map_eq_some_iff.mp link
  obtain ⟨p,parent,follows⟩ := linked later b stored (single.high member stored notRoot)
  exact ⟨p,b,parent,stored,follows.2.2⟩

theorem disciplined_exact (reached : Reached c meets s) : Disciplined s ↔ OneGenesis s s.bestChain := by
  have valid := reached_valid reached
  have linked := reached_linked reached
  obtain ⟨tip,b,branch,stored,height⟩ := valid.tip
  constructor
  · intro disciplined k member b stored zero
    obtain ⟨i,at_⟩ := List.mem_iff_getElem?.mp member
    obtain ⟨b',stored',index⟩ := disciplined.heights i k at_
    cases Option.some.inj (stored.symm.trans stored')
    rw [zero] at index
    obtain rfl : i = 0 := index.symm
    rw [← List.head?_eq_getElem?,branch.head] at at_
    exact (Option.some.inj at_).symm
  · intro single
    have heights := branch_heights valid linked branch single
    refine ⟨heights,?_,branch_times linked branch single⟩
    have last : s.bestChain[s.bestChain.length - 1]? = some tip := by
      rw [← List.getLast?_eq_getElem?]
      exact branch.last
    obtain ⟨b',stored',exact⟩ := heights _ _ last
    cases Option.some.inj (stored.symm.trans stored')
    rw [height,exact]

theorem new_oneGenesis (c : Crates) : OneGenesis (.new c) (Blockchain.new c).bestChain :=
  fun _ member _ _ _ => List.mem_singleton.mp member

theorem step_oneGenesis (valid : Valid c s) (single : OneGenesis s s.bestChain)
    (step : Step c s block next answer) : OneGenesis next next.bestChain ↔ NoSecondGenesis c s block := by
  rcases step_adopts step with ⟨chain,ledger,adopted,rfl⟩ | ⟨kept,same⟩
  · constructor
    · intro after candidate adopts
      cases (path_branch.mp adopted.path).unique (path_branch.mp adopts.path)
      exact after
    · intro safe
      exact safe chain adopted
  · obtain ⟨_,_,branch,_,_⟩ := valid.tip
    rw [same]
    exact ⟨fun _ chain adopts => absurd adopts (kept chain),fun _ => single.grows (step_grows step) (branch_stored branch)⟩

theorem discipline_exact (path : Runs.Run (Blockchain.addBlock c) (fun _ _ => True) (.new c) calls s) :
    (∀ earlier later mid, calls = earlier ++ later →
      Runs.Run (Blockchain.addBlock c) (fun _ _ => True) (.new c) earlier mid → Disciplined mid) ↔
    Runs.Run (Blockchain.addBlock c) (NoSecondGenesis c) (.new c) calls s := by
  apply Runs.run_exact (motive := fun _ s => Disciplined s) _ _ path
  · exact (disciplined_exact (new_reached c)).mpr (new_oneGenesis c)
  · intro calls s block next answer run disciplined ran
    have reached : Reachable c next := ⟨_,.step run trivial ran⟩
    rw [disciplined_exact reached]
    exact step_oneGenesis (reached_valid ⟨calls,run⟩) ((disciplined_exact ⟨calls,run⟩).mp disciplined)
      (addBlock_sound ran)

theorem discipline_exact_payBlock : ∃ calls s, Runs.Run (Blockchain.addBlock reference) (NoSecondGenesis reference)
    genesisState calls s ∧ s.bestChain.length = 3 ∧ Disciplined s := by
  have fed : (Runs.feed (fun s block => if NoSecondGenesis reference s block then s.addBlock reference block else none)
      genesisState [earnBlock,payBlock]).map (fun pair => pair.1.bestChain.length) = some 3 := by decide +kernel
  obtain ⟨⟨s,answers⟩,ran,length⟩ := Option.map_eq_some_iff.mp fed
  have allowed := (Runs.feed_run ran).1.guarded
  have path := allowed.weaken fun _ _ _ => trivial
  exact ⟨_,s,allowed,length,(discipline_exact path).mpr allowed _ [] s (List.append_nil _).symm path⟩

-- `orphanBlock` has height 0 and arrives before its parent `firstBlock`; its
-- child then carries height 1 at index 3.
def orphanBlock : Block := blockOn (firstBlock.hash reference) 0 [createCoinbaseTransaction 0 100 [2]]
def orphanChild : Block := blockOn (orphanBlock.hash reference) 1 [createCoinbaseTransaction 1 100 [3]]

theorem orphan_breaks_heights : ∃ s, Reachable reference s ∧ s.bestChain.length = 4 ∧ s.currentHeight = 1 ∧
    ¬ Disciplined s := by
  have fed : (Runs.feed (Blockchain.addBlock reference) genesisState [orphanBlock,firstBlock,orphanChild]).map
      (fun pair => (pair.1.bestChain.length,pair.1.currentHeight)) = some (4,1) := by decide +kernel
  obtain ⟨⟨s,answers⟩,ran,equal⟩ := Option.map_eq_some_iff.mp fed
  obtain ⟨length,height⟩ : s.bestChain.length = 4 ∧ s.currentHeight = 1 := by simpa using equal
  refine ⟨s,⟨_,(Runs.feed_run ran).1⟩,length,height,?_⟩
  intro disciplined
  have current := disciplined.current
  rw [length,height] at current
  exact absurd current (by decide)

end BlindEye.HeightDiscipline
