import BlindEye.Blockchain

namespace BlindEye.AddBlock
open Blockchain ParentWalk

abbrev Branch (s : Blockchain) (tip : Digest) (chain : List Digest) : Prop :=
  Walk s.parentLink s.genesisHash true tip chain
def Adrift (s : Blockchain) (tip : Digest) : Prop := ∃ trail, Walk s.parentLink s.genesisHash false tip trail

variable {c : Crates} {s next : Blockchain} {block : Block}

theorem link_stored : (s.parentLink k).isSome → k ∈ s.blocks.keys := by
  simp only [parentLink,getBlock,Option.isSome_map,Finmap.lookup_isSome,Finmap.mem_keys,imp_self]

theorem path_branch : s.pathToGenesis tip = some (some chain) ↔ Branch s tip chain := by
  rw [pathToGenesis,chase_exact fun _ => link_stored]
  constructor
  · intro walks
    obtain ⟨rooted,path,walk,equal⟩ := walks
    cases rooted with
    | false => cases equal
    | true => cases equal; exact walk
  · exact fun walk => ⟨true,chain,walk,rfl⟩

theorem path_adrift : s.pathToGenesis tip = some none ↔ Adrift s tip := by
  rw [pathToGenesis,chase_exact fun _ => link_stored]
  constructor
  · intro walks
    obtain ⟨rooted,path,walk,equal⟩ := walks
    cases rooted with
    | false => exact ⟨path,walk⟩
    | true => cases equal
  · intro walks
    obtain ⟨trail,walk⟩ := walks
    exact ⟨false,trail,walk,rfl⟩

-- The block gets as far as the two `insert` calls.
structure Admitted (c : Crates) (s : Blockchain) (block : Block) : Prop where
  fresh : block.hash c ∉ s.blocks
  parent : block.header.height > 0 → block.header.previousBlockHash ∈ s.blocks
  checked : block.validate c (s.getBlock block.header.previousBlockHash) = .ok ()

theorem Admitted.passes (admitted : Admitted c s block) :
    ¬ (block.header.height > 0 ∧ block.header.previousBlockHash ∉ s.blocks) :=
  fun orphan => orphan.2 (admitted.parent orphan.1)

def adopt (s : Blockchain) (block : Block) (chain : List Digest) (ledger : UtxoSet) : Blockchain :=
  { s with bestChain := chain, currentHeight := block.header.height, utxoSet := ledger }

-- Every way for a call to come back, with the state it leaves.
inductive Step (c : Crates) (s : Blockchain) (block : Block) : Blockchain → Answer → Prop where
  | known : block.hash c ∈ s.blocks → Step c s block s (.error "Block is already known")
  | orphan : block.hash c ∉ s.blocks → block.header.height > 0 → block.header.previousBlockHash ∉ s.blocks →
      Step c s block s (.error "Previous block not found")
  | refused : block.hash c ∉ s.blocks → (block.header.height > 0 → block.header.previousBlockHash ∈ s.blocks) →
      block.validate c (s.getBlock block.header.previousBlockHash) = .error text → Step c s block s (.error text)
  | adrift : Admitted c s block → Adrift (s.store c block) (block.hash c) →
      Step c s block (s.store c block) (.error "Unable to build candidate chain path")
  | invalid : Admitted c s block → Branch (s.store c block) (block.hash c) chain →
      (s.store c block).buildUtxoStateForChain c chain = .error text →
      Step c s block (s.store c block) (.error text)
  | adopted : Admitted c s block → Branch (s.store c block) (block.hash c) chain →
      (s.store c block).buildUtxoStateForChain c chain = .ok ledger → chain.length > s.bestChain.length →
      Step c s block (adopt (s.store c block) block chain ledger) (.ok ())
  | kept : Admitted c s block → Branch (s.store c block) (block.hash c) chain →
      (s.store c block).buildUtxoStateForChain c chain = .ok ledger → chain.length ≤ s.bestChain.length →
      Step c s block (s.store c block) (.ok ())

theorem addBlock_sound (ran : s.addBlock c block = some (next,answer)) : Step c s block next answer := by
  unfold addBlock at ran
  dsimp only at ran
  split at ran
  · rename_i known; cases ran; exact .known known
  · rename_i fresh
    split at ran
    · rename_i orphan; cases ran; exact .orphan fresh orphan.1 orphan.2
    · rename_i parent
      have parent : block.header.height > 0 → block.header.previousBlockHash ∈ s.blocks :=
        fun high => Classical.byContradiction fun missing => parent ⟨high,missing⟩
      split at ran
      · rename_i refused; cases ran; exact .refused fresh parent refused
      · rename_i checked
        have admitted : Admitted c s block := ⟨fresh,parent,checked⟩
        split at ran
        · cases ran
        · rename_i lost; cases ran; exact .adrift admitted (path_adrift.mp lost)
        · rename_i chain path
          have branch := path_branch.mp path
          split at ran
          · rename_i failed; cases ran; exact .invalid admitted branch failed
          · rename_i built
            split at ran
            · rename_i longer; cases ran; exact .adopted admitted branch built longer
            · rename_i short; cases ran; exact .kept admitted branch built (Nat.not_lt.mp short)

theorem addBlock_complete (step : Step c s block next answer) : s.addBlock c block = some (next,answer) := by
  cases step with
  | known known => simp [addBlock,known]
  | orphan fresh high missing => simp [addBlock,fresh,high,missing]
  | refused fresh parent refused =>
    have passes : ¬ (block.header.height > 0 ∧ block.header.previousBlockHash ∉ s.blocks) :=
      fun orphan => orphan.2 (parent orphan.1)
    simp only [addBlock,if_neg fresh,if_neg passes,refused]
  | adrift admitted lost =>
    simp only [addBlock,if_neg admitted.fresh,if_neg admitted.passes,admitted.checked,path_adrift.mpr lost]
  | invalid admitted branch failed =>
    simp only [addBlock,if_neg admitted.fresh,if_neg admitted.passes,admitted.checked,
      path_branch.mpr branch,failed]
  | adopted admitted branch built longer =>
    have longer' : _ > (s.store c block).bestChain.length := longer
    simp only [addBlock,if_neg admitted.fresh,if_neg admitted.passes,admitted.checked,
      path_branch.mpr branch,built,if_pos longer',adopt]
  | kept admitted branch built short =>
    have short' : ¬ _ > (s.store c block).bestChain.length := Nat.not_lt.mpr short
    simp only [addBlock,if_neg admitted.fresh,if_neg admitted.passes,admitted.checked,
      path_branch.mpr branch,built,if_neg short']

theorem addBlock_exact : s.addBlock c block = some (next,answer) ↔ Step c s block next answer :=
  ⟨addBlock_sound,addBlock_complete⟩

-- The call makes `chain` the best chain.
structure Adopts (c : Crates) (s : Blockchain) (block : Block) (chain : List Digest) : Prop where
  admitted : Admitted c s block
  path : (s.store c block).pathToGenesis (block.hash c) = some (some chain)
  replays : ∃ ledger, (s.store c block).buildUtxoStateForChain c chain = .ok ledger
  longer : chain.length > s.bestChain.length

instance : Decidable (Admitted c s block) :=
  decidable_of_iff (block.hash c ∉ s.blocks ∧
      (block.header.height > 0 → block.header.previousBlockHash ∈ s.blocks) ∧
      block.validate c (s.getBlock block.header.previousBlockHash) = .ok ())
    ⟨fun ⟨fresh,parent,checked⟩ => ⟨fresh,parent,checked⟩,fun ⟨fresh,parent,checked⟩ => ⟨fresh,parent,checked⟩⟩

-- The chain that the call adopts, if it adopts one.
def adopted (c : Crates) (s : Blockchain) (block : Block) : Option (List Digest) :=
  match (s.store c block).pathToGenesis (block.hash c) with
  | some (some chain) =>
    if Admitted c s block ∧ ((s.store c block).buildUtxoStateForChain c chain).toBool ∧
        chain.length > s.bestChain.length then some chain
    else none
  | _ => none

theorem adopted_exact : adopted c s block = some chain ↔ Adopts c s block chain := by
  unfold adopted
  constructor
  · intro found
    split at found
    · rename_i path
      split at found
      · rename_i all
        cases found
        exact ⟨all.1,path,Fallible.toBool_ok.mp all.2.1,all.2.2⟩
      · cases found
    · cases found
  · intro adopts
    rw [adopts.path]
    exact if_pos ⟨adopts.admitted,Fallible.toBool_ok.mpr adopts.replays,adopts.longer⟩

instance {good : List Digest → Prop} [DecidablePred good] : Decidable (∀ chain, Adopts c s block chain → good chain) :=
  decidable_of_iff (∀ chain ∈ adopted c s block, good chain) (by simp only [Option.mem_def,adopted_exact])

-- Either the call adopts a chain, or the best chain and its ledger stay.
theorem step_outcome (step : Step c s block next answer) :
    (∃ chain ledger, Adopts c s block chain ∧ (s.store c block).buildUtxoStateForChain c chain = .ok ledger ∧
      next = adopt (s.store c block) block chain ledger ∧ answer = .ok ()) ∨
    (∀ chain, ¬ Adopts c s block chain) ∧ next.bestChain = s.bestChain ∧ next.utxoSet = s.utxoSet := by
  cases step with
  | known known => exact .inr ⟨fun _ adopts => adopts.admitted.fresh known,rfl,rfl⟩
  | orphan _ high missing => exact .inr ⟨fun _ adopts => missing (adopts.admitted.parent high),rfl,rfl⟩
  | refused _ _ refused =>
    refine .inr ⟨fun _ adopts => ?_,rfl,rfl⟩
    rw [adopts.admitted.checked] at refused
    cases refused
  | adrift _ lost =>
    refine .inr ⟨fun _ adopts => ?_,rfl,rfl⟩
    have path := adopts.path
    rw [path_adrift.mpr lost] at path
    cases path
  | invalid _ branch failed =>
    refine .inr ⟨fun _ adopts => ?_,rfl,rfl⟩
    obtain ⟨ledger,built⟩ := adopts.replays
    cases branch.unique (path_branch.mp adopts.path)
    rw [failed] at built
    cases built
  | @adopted chain ledger admitted branch built longer =>
    exact .inl ⟨chain,ledger,⟨admitted,path_branch.mpr branch,⟨ledger,built⟩,longer⟩,built,rfl,rfl⟩
  | kept _ branch _ short =>
    refine .inr ⟨fun _ adopts => ?_,rfl,rfl⟩
    cases branch.unique (path_branch.mp adopts.path)
    exact Nat.not_lt.mpr short adopts.longer

theorem step_adopts (step : Step c s block next answer) :
    (∃ chain ledger, Adopts c s block chain ∧ next = adopt (s.store c block) block chain ledger) ∨
    (∀ chain, ¬ Adopts c s block chain) ∧ next.bestChain = s.bestChain := by
  rcases step_outcome step with ⟨chain,ledger,adopts,_,equal,_⟩ | ⟨kept,same,_⟩
  · exact .inl ⟨chain,ledger,adopts,equal⟩
  · exact .inr ⟨kept,same⟩

theorem accepted_admitted (step : Step c s block next (.ok ())) : Admitted c s block := by
  cases step with
  | adopted admitted | kept admitted => exact admitted

end BlindEye.AddBlock
