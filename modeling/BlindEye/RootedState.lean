import BlindEye.DeliveryOrder

namespace BlindEye.RootedState
open AddBlock ChainState ParentWalk DeliveryOrder

variable {c : Crates} {s next : Blockchain} {block : Block} {chain : List Digest}

-- The delivered block names a stored block as its parent.
def ParentStored (s : Blockchain) (block : Block) : Prop := block.header.previousBlockHash ∈ s.blocks

instance : Decidable (ParentStored s block) := inferInstanceAs (Decidable (_ ∈ s.blocks))

-- The state after blocks that each came behind their parent.
structure Rooted (c : Crates) (s : Blockchain) : Prop where
  valid : Valid c s
  follows : ∀ k b, s.getBlock k = some b → k ≠ s.genesisHash →
    ∃ p, s.getBlock b.header.previousBlockHash = some p ∧ b.Follows c p
  branches : ∀ k b, s.getBlock k = some b → ∃ chain, Branch s k chain
  longest : Longest c s

theorem new_rooted (c : Crates) : Rooted c (.new c) := by
  have valid := new_valid c
  have only : ∀ k b, (Blockchain.new c).getBlock k = some b → k = (Blockchain.new c).genesisHash := by
    intro k b stored
    by_contra other
    rw [new_unstored other] at stored
    cases stored
  refine ⟨valid,fun k b stored other => absurd (only k b stored) other,?_,(new_delivered c).longest⟩
  intro k b stored
  obtain rfl := only k b stored
  obtain ⟨tip,b',branch,_,_⟩ := valid.tip
  have root : tip = (Blockchain.new c).genesisHash := by
    have last := branch.last
    change [(Blockchain.new c).genesisHash].getLast? = some tip at last
    exact (Option.some.inj last).symm
  exact ⟨_,root ▸ branch⟩

theorem admitted_follows (admitted : Admitted c s block) (parent : s.getBlock block.header.previousBlockHash = some p) :
    block.Follows c p := by
  have checked := ((Block.validate_exact _ _ _).mp admitted.checked).1
  rwa [parent,Block.validateParent_some] at checked

theorem store_follows (rooted : Rooted c s) (admitted : Admitted c s block) (behind : ParentStored s block)
    (stored : (s.store c block).getBlock k = some b) (other : k ≠ s.genesisHash) :
    ∃ p, (s.store c block).getBlock b.header.previousBlockHash = some p ∧ b.Follows c p := by
  have grows := store_grows admitted.fresh
  rcases store_stored stored with old | ⟨_,rfl⟩
  · obtain ⟨p,parent,follows⟩ := rooted.follows k b old other
    exact ⟨p,grows.blocks _ _ parent,follows⟩
  · obtain ⟨p,parent⟩ := mem_blocks.mp behind
    exact ⟨p,grows.blocks _ _ parent,admitted_follows admitted parent⟩

theorem store_branches (rooted : Rooted c s) (admitted : Admitted c s block) (behind : ParentStored s block)
    (stored : (s.store c block).getBlock k = some b) : ∃ chain, Branch (s.store c block) k chain := by
  rcases store_stored stored with old | ⟨rfl,_⟩
  · obtain ⟨chain,branch⟩ := rooted.branches k b old
    exact ⟨chain,branch_grows (store_grows admitted.fresh) branch⟩
  · obtain ⟨p,parent⟩ := mem_blocks.mp behind
    obtain ⟨chain,branch⟩ := rooted.branches _ p parent
    exact ⟨_,store_branch rooted.valid admitted branch⟩

-- A block that is new has no child yet.
theorem store_leaf (rooted : Rooted c s) (fresh : block.hash c ∉ s.blocks) (behind : ParentStored s block) :
    Leaf c (s.store c block) block := by
  intro k b stored other names
  have missing : b.header.previousBlockHash ∉ s.blocks := names ▸ fresh
  rcases store_stored stored with old | ⟨_,rfl⟩
  · obtain ⟨p,parent,_⟩ := rooted.follows k b old other
    exact missing (mem_blocks.mpr ⟨p,parent⟩)
  · exact missing behind

theorem step_rooted (rooted : Rooted c s) (behind : ParentStored s block) (step : Step c s block next answer) :
    Rooted c next := by
  have valid := step_valid rooted.valid step
  have stored : Admitted c s block → (∀ k, next.getBlock k = (s.store c block).getBlock k) →
      next.genesisHash = s.genesisHash → Rooted c next := by
    intro admitted same genesis
    have leaf := store_leaf rooted admitted.fresh behind
    refine ⟨valid,?_,?_,?_⟩
    · intro k b found other
      rw [same] at found
      rw [same]
      exact store_follows rooted admitted behind found (genesis ▸ other)
    · intro k b found
      rw [same] at found
      obtain ⟨chain,branch⟩ := store_branches rooted admitted behind found
      exact ⟨chain,branch_grows ⟨fun k b found => (same k).trans found,genesis,by cases step <;> rfl⟩ branch⟩
    · apply step_longest rooted.longest admitted.fresh _ step
      intro k b found other
      rw [same] at found
      exact leaf k b found (by exact genesis ▸ other)
  cases step with
  | known | orphan | refused => exact rooted
  | adrift admitted | invalid admitted | kept admitted | adopted admitted =>
    exact stored admitted (fun _ => rfl) rfl

theorem reached_rooted (reached : Reached c ParentStored s) : Rooted c s := by
  obtain ⟨calls,path⟩ := reached
  exact Runs.run_invariant (new_rooted c) (fun rooted behind ran => step_rooted rooted behind (addBlock_sound ran)) path

theorem rooted_follows (rooted : Rooted c s) (stored : s.getBlock k = some b) (other : k ≠ s.genesisHash)
    (parent : s.getBlock b.header.previousBlockHash = some p) : b.Follows c p := by
  obtain ⟨p',parent',follows⟩ := rooted.follows k b stored other
  cases Option.some.inj (parent.symm.trans parent')
  exact follows

theorem rooted_height (rooted : Rooted c s) (branch : Branch s tip chain) :
    ∃ b, s.getBlock tip = some b ∧ b.header.height = UInt64.ofNat (chain.length - 1) :=
  branch_height rooted.valid branch fun _ _ _ stored other parent => rooted_follows rooted stored other parent

-- In a chain that a u64 counts, the index of a block is its height.
theorem rooted_index (rooted : Rooted c s) (branch : Branch s tip chain) (few : chain.length ≤ 2^64)
    (at_ : chain[i]? = some k) : ∃ b, s.getBlock k = some b ∧ b.header.height.toNat = i := by
  have inside := (List.getElem?_eq_some_iff.mp at_).1
  obtain ⟨b,stored,height⟩ := rooted_height rooted (branch.atIndex at_)
  rw [List.length_take_of_le (Nat.succ_le_of_lt inside),Nat.succ_sub_one] at height
  refine ⟨b,stored,?_⟩
  rw [height]
  exact UInt64.toNat_ofNat_of_lt' (Nat.lt_of_lt_of_le inside few)

theorem rooted_current (rooted : Rooted c s) (few : s.bestChain.length ≤ 2^64) :
    s.currentHeight.toNat = s.bestChain.length - 1 := by
  obtain ⟨tip,b,branch,stored,current⟩ := rooted.valid.tip
  have positive := List.length_pos_iff.mpr branch.ne_nil
  obtain ⟨b',stored',height⟩ := rooted_height rooted branch
  cases Option.some.inj (stored.symm.trans stored')
  rw [current,height]
  exact UInt64.toNat_ofNat_of_lt' (by rw [UInt64.size]; omega)

end BlindEye.RootedState
