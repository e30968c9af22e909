import BlindEye.ChainState

namespace BlindEye.ForkChoice
open AddBlock ChainState ParentWalk Runs

variable {c : Crates} {s next : Blockchain} {block : Block} {chain : List Digest} {calls : List (Block × Answer)}

def work (block : Block) : Nat := 2^128 / ((BlindHash.targetFromBits block.header.bits).toNat + 1)
def chainWork (s : Blockchain) (chain : List Digest) : Nat :=
  (chain.map fun k => ((s.getBlock k).map work).getD 0).sum

-- No accepted block ends a path with more work than the best chain.
def Heaviest (c : Crates) (calls : List (Block × Answer)) (s : Blockchain) : Prop :=
  ∀ block chain, (block,.ok ()) ∈ calls → s.pathToGenesis (block.hash c) = some (some chain) →
    chainWork s chain ≤ chainWork s s.bestChain

-- Length and work rank the branch of the block and the best chain alike, if
-- the branch replays at all.
def InOrder (c : Crates) (s : Blockchain) (block : Block) : Prop :=
  Admitted c s block → ∀ chain ledger, (s.store c block).pathToGenesis (block.hash c) = some (some chain) →
    (s.store c block).buildUtxoStateForChain c chain = .ok ledger →
    (chain.length > s.bestChain.length → chainWork s s.bestChain ≤ chainWork (s.store c block) chain) ∧
    (chain.length ≤ s.bestChain.length → chainWork (s.store c block) chain ≤ chainWork s s.bestChain)

instance : Decidable (InOrder c s block) :=
  decidable_of_iff (Admitted c s block →
      ∀ path ∈ (s.store c block).pathToGenesis (block.hash c), ∀ chain ∈ path,
        ∀ ledger ∈ ((s.store c block).buildUtxoStateForChain c chain).toOption,
          (chain.length > s.bestChain.length → chainWork s s.bestChain ≤ chainWork (s.store c block) chain) ∧
          (chain.length ≤ s.bestChain.length → chainWork (s.store c block) chain ≤ chainWork s s.bestChain)) (by
    have built : ∀ {build : Except String UtxoSet} {ledger : UtxoSet}, ledger ∈ build.toOption ↔ build = .ok ledger := by
      intro build ledger
      cases build <;> simp [Except.toOption]
    constructor
    · exact fun ordered admitted chain ledger path replay => ordered admitted _ path chain rfl ledger (built.mpr replay)
    · rintro ordered admitted _ path chain rfl ledger replay
      exact ordered admitted chain ledger path (built.mp replay))

structure Traced (c : Crates) (calls : List (Block × Answer)) (s : Blockchain) : Prop where
  valid : Valid c s
  accepted : ∀ block, (block,.ok ()) ∈ calls → ∃ chain, Branch s (block.hash c) chain
  best : s.bestChain = [s.genesisHash] ∨ ∃ block, (block,.ok ()) ∈ calls ∧ Branch s (block.hash c) s.bestChain

theorem new_traced (c : Crates) : Traced c [] (.new c) :=
  ⟨new_valid c,fun _ member => absurd member List.not_mem_nil,.inl rfl⟩

theorem step_traced (traced : Traced c calls s) (step : Step c s block next answer) :
    Traced c (calls ++ [(block,answer)]) next := by
  rcases traced with ⟨valid,accepted,best⟩
  have grows := step_grows step
  have kept : next.bestChain = s.bestChain → next.bestChain = [next.genesisHash] ∨
      ∃ b, (b,.ok ()) ∈ calls ++ [(block,answer)] ∧ Branch next (b.hash c) next.bestChain := by
    intro same
    rw [same,grows.genesis]
    rcases best with root | ⟨b,member,branch⟩
    · exact .inl root
    · exact .inr ⟨b,List.mem_append_left _ member,branch_grows grows branch⟩
  refine ⟨step_valid valid step,?_,?_⟩
  · intro b member
    rcases List.mem_append.mp member with old | new
    · obtain ⟨chain,branch⟩ := accepted b old
      exact ⟨chain,branch_grows grows branch⟩
    · obtain ⟨rfl,answered⟩ := Prod.mk.inj (List.mem_singleton.mp new)
      subst answered
      cases step with
      | adopted _ branch => exact ⟨_,branch⟩
      | kept _ branch => exact ⟨_,branch⟩
  · cases step with
    | known | orphan | refused | adrift | invalid | kept => exact kept rfl
    | adopted _ branch => exact .inr ⟨block,by simp,branch⟩

theorem run_traced (path : Run (Blockchain.addBlock c) meets (.new c) calls s) : Traced c calls s := by
  induction path with
  | nil => exact new_traced c
  | step _ _ ran ih => exact step_traced ih (addBlock_sound ran)

theorem work_grows (grows : Grows s next) (stored : Stored s chain) : chainWork next chain = chainWork s chain := by
  unfold chainWork
  rw [List.map_congr_left fun k member => ?_]
  rw [grows.same stored k member]

theorem best_stored (valid : Valid c s) : Stored s s.bestChain := by
  obtain ⟨_,_,branch,_,_⟩ := valid.tip
  exact branch_stored branch

theorem earlier_bounded (traced : Traced c calls s) (heaviest : Heaviest c calls s) (grows : Grows s next)
    (member : (block,.ok ()) ∈ calls) (branch : Branch next (block.hash c) chain) :
    chainWork next chain ≤ chainWork s s.bestChain := by
  obtain ⟨earlier,before⟩ := traced.accepted block member
  obtain rfl := (branch_grows grows before).unique branch
  rw [work_grows grows (branch_stored before)]
  exact heaviest block earlier member (path_branch.mpr before)

theorem refused_heaviest (traced : Traced c calls s) (heaviest : Heaviest c calls s) (grows : Grows s next)
    (same : next.bestChain = s.bestChain) : Heaviest c (calls ++ [(block,.error text)]) next := by
  intro b chain member path
  rcases List.mem_append.mp member with old | new
  · rw [same,work_grows grows (best_stored traced.valid)]
    exact earlier_bounded traced heaviest grows old (path_branch.mp path)
  · simp at new

-- The genesis path is a part of every branch, so it never has more work.
theorem genesis_least (branch : Branch s tip chain) : chainWork s [s.genesisHash] ≤ chainWork s chain := by
  cases chain with
  | nil => exact absurd rfl branch.ne_nil
  | cons first rest =>
    have root : first = s.genesisHash := by simpa using branch.head
    subst root
    simp [chainWork]

theorem adopted_exact {ledger : UtxoSet} (traced : Traced c calls s) (heaviest : Heaviest c calls s)
    (admitted : Admitted c s block) (branch : Branch (s.store c block) (block.hash c) chain) :
    Heaviest c (calls ++ [(block,.ok ())]) (adopt (s.store c block) block chain ledger) ↔
      chainWork s s.bestChain ≤ chainWork (s.store c block) chain := by
  have grows := store_grows (c := c) admitted.fresh
  constructor
  · intro after
    rcases traced.best with root | ⟨b,member,best⟩
    · rw [root,← work_grows grows fun k inside => ⟨_,List.mem_singleton.mp inside ▸ traced.valid.genesis⟩]
      exact genesis_least branch
    · have path : (s.store c block).pathToGenesis (b.hash c) = some (some s.bestChain) :=
        path_branch.mpr (branch_grows grows best)
      rw [← work_grows grows (best_stored traced.valid)]
      exact after b s.bestChain (List.mem_append_left _ member) path
  · intro more b candidate member path
    have path : (s.store c block).pathToGenesis (b.hash c) = some (some candidate) := path
    change chainWork (s.store c block) candidate ≤ chainWork (s.store c block) chain
    rcases List.mem_append.mp member with old | new
    · exact Nat.le_trans (earlier_bounded traced heaviest grows old (path_branch.mp path)) more
    · obtain rfl : b = block := by simpa using new
      cases branch.unique (path_branch.mp path)
      exact Nat.le_refl _

theorem kept_exact (traced : Traced c calls s) (heaviest : Heaviest c calls s)
    (admitted : Admitted c s block) (branch : Branch (s.store c block) (block.hash c) chain) :
    Heaviest c (calls ++ [(block,.ok ())]) (s.store c block) ↔
      chainWork (s.store c block) chain ≤ chainWork s s.bestChain := by
  have grows := store_grows (c := c) admitted.fresh
  have best : chainWork (s.store c block) s.bestChain = chainWork s s.bestChain :=
    work_grows grows (best_stored traced.valid)
  constructor
  · intro after
    rw [← best]
    exact after block chain (by simp) (path_branch.mpr branch)
  · intro less b candidate member path
    rw [show (s.store c block).bestChain = s.bestChain from rfl,best]
    rcases List.mem_append.mp member with old | new
    · exact earlier_bounded traced heaviest grows old (path_branch.mp path)
    · obtain rfl : b = block := by simpa using new
      cases branch.unique (path_branch.mp path)
      exact less

theorem heaviest_step (traced : Traced c calls s) (heaviest : Heaviest c calls s)
    (step : Step c s block next answer) : Heaviest c (calls ++ [(block,answer)]) next ↔ InOrder c s block := by
  have grows := step_grows step
  cases step with
  | known known =>
    refine ⟨fun _ admitted => absurd known admitted.fresh,fun _ => refused_heaviest traced heaviest grows rfl⟩
  | orphan _ high missing =>
    refine ⟨fun _ admitted => absurd (admitted.parent high) missing,fun _ => refused_heaviest traced heaviest grows rfl⟩
  | refused _ _ refused =>
    refine ⟨fun _ admitted => ?_,fun _ => refused_heaviest traced heaviest grows rfl⟩
    rw [admitted.checked] at refused
    cases refused
  | adrift _ lost =>
    refine ⟨fun _ _ chain _ path => ?_,fun _ => refused_heaviest traced heaviest grows rfl⟩
    rw [path_adrift.mpr lost] at path
    cases path
  | invalid _ branch failed =>
    refine ⟨fun _ _ chain ledger path built => ?_,fun _ => refused_heaviest traced heaviest grows rfl⟩
    cases branch.unique (path_branch.mp path)
    rw [failed] at built
    cases built
  | adopted admitted branch built longer =>
    rw [adopted_exact traced heaviest admitted branch]
    constructor
    · intro more _ candidate ledger path _
      cases branch.unique (path_branch.mp path)
      exact ⟨fun _ => more,fun short => absurd longer (Nat.not_lt.mpr short)⟩
    · intro ordered
      exact (ordered admitted _ _ (path_branch.mpr branch) built).1 longer
  | kept admitted branch built short =>
    rw [kept_exact traced heaviest admitted branch]
    constructor
    · intro less _ candidate ledger path _
      cases branch.unique (path_branch.mp path)
      exact ⟨fun longer => absurd longer (Nat.not_lt.mpr short),fun _ => less⟩
    · intro ordered
      exact (ordered admitted _ _ (path_branch.mpr branch) built).2 short

theorem heaviest_exact (path : Run (Blockchain.addBlock c) (fun _ _ => True) (.new c) calls s) :
    (∀ earlier later mid, calls = earlier ++ later →
      Run (Blockchain.addBlock c) (fun _ _ => True) (.new c) earlier mid → Heaviest c earlier mid) ↔
    Run (Blockchain.addBlock c) (InOrder c) (.new c) calls s := by
  apply run_exact _ _ path
  · intro block chain member
    cases member
  · intro calls s block next answer run heaviest ran
    exact heaviest_step (run_traced run) heaviest (addBlock_sound ran)

theorem heaviest_exact_fork : ∃ calls s, Run (Blockchain.addBlock reference) (InOrder reference) genesisState calls s ∧
    s.bestChain = [genesisState.genesisHash,rivalBlock.hash reference,heirBlock.hash reference] ∧
    (firstBlock,.ok ()) ∈ calls ∧ Heaviest reference calls s := by
  have fed : (feed (fun s block => if InOrder reference s block then s.addBlock reference block else none)
      genesisState [firstBlock,rivalBlock,heirBlock]).map (fun pair => (pair.1.bestChain,pair.2)) =
      some ([genesisState.genesisHash,rivalBlock.hash reference,heirBlock.hash reference],[.ok (),.ok (),.ok ()]) := by
    decide +kernel
  obtain ⟨⟨s,answers⟩,ran,equal⟩ := Option.map_eq_some_iff.mp fed
  obtain ⟨chain,rfl⟩ := Prod.mk.inj equal
  have allowed := (feed_run ran).1.guarded
  have path := allowed.weaken fun _ _ _ => trivial
  exact ⟨_,s,allowed,chain,by simp,(heaviest_exact path).mpr allowed _ [] s (List.append_nil _).symm path⟩

-- Two easy blocks against one hard block.
def easyBlock : Block := blockOn (firstBlock.hash reference) 2 [createCoinbaseTransaction 2 100 [3]]

theorem hardBlock_outweighs : ∃ calls s, Run (Blockchain.addBlock reference) (fun _ _ => True) genesisState calls s ∧
    (hardBlock,.ok ()) ∈ calls ∧ ¬ Heaviest reference calls s := by
  have fed : (feed (Blockchain.addBlock reference) genesisState [firstBlock,easyBlock,hardBlock]).map (fun pair =>
      (pair.2,pair.1.pathToGenesis (hardBlock.hash reference),
        chainWork pair.1 pair.1.bestChain,chainWork pair.1 [genesisState.genesisHash,hardBlock.hash reference])) =
      some ([.ok (),.ok (),.ok ()],some (some [genesisState.genesisHash,hardBlock.hash reference]),3,5) := by
    decide +kernel
  obtain ⟨⟨s,answers⟩,ran,equal⟩ := Option.map_eq_some_iff.mp fed
  simp only [Prod.mk.injEq] at equal
  obtain ⟨rfl,path,best,side⟩ := equal
  have member : (hardBlock,(.ok () : Answer)) ∈
      [firstBlock,easyBlock,hardBlock].zip [(.ok () : Answer),.ok (),.ok ()] := by simp
  refine ⟨_,s,(feed_run ran).1,member,fun heaviest => ?_⟩
  have bounded := heaviest hardBlock _ member path
  rw [best,side] at bounded
  omega

end BlindEye.ForkChoice
