import BlindEye.ChainState

namespace BlindEye.DeliveryOrder
open AddBlock ChainState ParentWalk Runs

variable {c : Crates} {s next : Blockchain} {block : Block} {done : List Block} {chain : List Digest}

-- The order in which a set of blocks arrives: no hash twice, none of them the
-- genesis hash, no block before its parent, and few enough for u64 heights.
structure Delivery (c : Crates) (order : List Block) : Prop where
  distinct : (order.map (Block.hash c)).Nodup
  away : (Blockchain.createGenesisBlock c).hash c ∉ order.map (Block.hash c)
  parentFirst : ParentFirst (Block.hash c) (fun block => block.header.previousBlockHash) order
  few : order.length < 2^64

-- The tests that stand before the writes, against what is stored for the parent.
structure Passes (c : Crates) (block : Block) (parent : Option Block) : Prop where
  known : block.header.height > 0 → parent.isSome
  checked : block.validate c parent = .ok ()

-- The answer to a block, read off a state in which the call is over.
def verdict (c : Crates) (s : Blockchain) (block : Block) : Option Answer :=
  if block.header.height > 0 ∧ block.header.previousBlockHash ∉ s.blocks then
    some (.error "Previous block not found")
  else
    match block.validate c (s.getBlock block.header.previousBlockHash) with
    | .error text => some (.error text)
    | .ok () =>
      match s.pathToGenesis (block.hash c) with
      | none => none
      | some none => some (.error "Unable to build candidate chain path")
      | some (some chain) =>
        match s.buildUtxoStateForChain c chain with
        | .error text => some (.error text)
        | .ok _ => some (.ok ())

-- No stored block that a walk passes through names `block` as its parent.
def Leaf (c : Crates) (s : Blockchain) (block : Block) : Prop :=
  ∀ k b, s.getBlock k = some b → k ≠ s.genesisHash → b.header.previousBlockHash ≠ block.hash c

def Ended (s : Blockchain) : Prop := ∀ k, ∃ rooted path, Walk s.parentLink s.genesisHash rooted k path

def Longest (c : Crates) (s : Blockchain) : Prop :=
  ∀ tip chain ledger, Branch s tip chain → s.buildUtxoStateForChain c chain = .ok ledger →
    chain.length ≤ s.bestChain.length

-- What is known once the blocks of `done` are delivered. The map is determined
-- by `foreign` and `settled`, which do not mention the order.
structure Delivered (c : Crates) (done : List Block) (s : Blockchain) : Prop where
  valid : Valid c s
  foreign : ∀ k, (∀ b ∈ done, b.hash c ≠ k) → s.getBlock k = (Blockchain.new c).getBlock k
  settled : ∀ b ∈ done, ∀ x, s.getBlock (b.hash c) = some x ↔
    x = b ∧ Passes c b (s.getBlock b.header.previousBlockHash)
  ended : Ended s
  longest : Longest c s

theorem step_others (step : Step c s block next answer) (other : k ≠ block.hash c) :
    next.getBlock k = s.getBlock k := by
  cases step with
  | known | orphan | refused => rfl
  | adrift | invalid | kept => exact getBlock_store_ne other
  | adopted => exact getBlock_store_ne other

theorem step_own (fresh : block.hash c ∉ s.blocks) (step : Step c s block next answer) :
    next.getBlock (block.hash c) = some x ↔ x = block ∧ Passes c block (s.getBlock block.header.previousBlockHash) := by
  have absent : s.getBlock (block.hash c) = none := Finmap.lookup_eq_none.mpr fresh
  have passes : Admitted c s block → Passes c block (s.getBlock block.header.previousBlockHash) := fun admitted =>
    ⟨fun high => Finmap.lookup_isSome.mpr (admitted.parent high),admitted.checked⟩
  cases step with
  | known known => exact absurd known fresh
  | orphan _ high missing =>
    rw [absent]
    refine ⟨fun absurd => (by cases absurd),fun ⟨_,passed⟩ => absurd ?_ missing⟩
    exact Finmap.lookup_isSome.mp (passed.known high)
  | refused _ _ refused =>
    rw [absent]
    refine ⟨fun absurd => (by cases absurd),fun ⟨_,passed⟩ => ?_⟩
    rw [passed.checked] at refused
    cases refused
  | adrift admitted | invalid admitted | kept admitted | adopted admitted =>
    have stored : (s.store c block).getBlock (block.hash c) = some block := getBlock_store_self
    change (s.store c block).getBlock (block.hash c) = some x ↔ _
    rw [stored,Option.some.injEq,eq_comm]
    exact ⟨fun equal => ⟨equal,passes admitted⟩,fun equal => equal.1⟩

theorem step_verdict (fresh : block.hash c ∉ s.blocks) (loopless : block.header.previousBlockHash ≠ block.hash c)
    (step : Step c s block next answer) : verdict c next block = some answer := by
  have parent : (s.store c block).getBlock block.header.previousBlockHash =
      s.getBlock block.header.previousBlockHash := getBlock_store_ne loopless
  have known : block.header.previousBlockHash ∈ (s.store c block).blocks ↔
      block.header.previousBlockHash ∈ s.blocks := by rw [mem_blocks,mem_blocks,parent]
  cases step with
  | known known => exact absurd known fresh
  | orphan _ high missing => simp [verdict,high,missing]
  | refused _ passes refused =>
    have passes : ¬ (block.header.height > 0 ∧ block.header.previousBlockHash ∉ s.blocks) :=
      fun orphan => orphan.2 (passes orphan.1)
    simp only [verdict,if_neg passes,refused]
  | adrift admitted lost =>
    simp only [verdict,known,parent,if_neg admitted.passes,admitted.checked,path_adrift.mpr lost]
  | invalid admitted branch failed =>
    simp only [verdict,known,parent,if_neg admitted.passes,admitted.checked,path_branch.mpr branch,failed]
  | adopted admitted branch built | kept admitted branch built =>
    change verdict c (s.store c block) block = _
    simp only [verdict,known,parent,if_neg admitted.passes,admitted.checked,path_branch.mpr branch,built]

section
variable (grows : Grows s next) (others : ∀ k, k ≠ block.hash c → next.getBlock k = s.getBlock k)
  (leaf : Leaf c next block)
include grows others leaf

theorem walk_leaf (other : k ≠ block.hash c) : Walk next.parentLink next.genesisHash rooted k path ↔
    Walk s.parentLink s.genesisHash rooted k path := by
  have links : ∀ k, k ≠ block.hash c → next.parentLink k = s.parentLink k := fun k other => by
    rw [Blockchain.parentLink,Blockchain.parentLink,others k other]
  have away : ∀ k up, next.parentLink k = some up → k ≠ s.genesisHash → up ≠ block.hash c := by
    intro k up link ne
    obtain ⟨b,stored,rfl⟩ := Option.map_eq_some_iff.mp link
    exact leaf k b stored (grows.genesis ▸ ne)
  rw [grows.genesis]
  constructor
  · intro walk
    exact walk.transfer (links k other).symm fun k up link ne => (links up (away k up link ne)).symm
  · intro walk
    refine walk.transfer (links k other) fun k up link ne => links up (away k up ?_ ne)
    obtain ⟨b,stored,rfl⟩ := Option.map_eq_some_iff.mp link
    rw [Blockchain.parentLink,grows.blocks k b stored]
    rfl

theorem path_leaf (other : k ≠ block.hash c) : next.pathToGenesis k = s.pathToGenesis k := by
  apply Option.ext
  intro r
  unfold Blockchain.pathToGenesis
  rw [chase_exact fun _ => link_stored,chase_exact fun _ => link_stored]
  simp only [walk_leaf grows others leaf other]

theorem verdict_leaf {b : Block} (other : b.hash c ≠ block.hash c) :
    b.header.previousBlockHash ≠ block.hash c → verdict c next b = verdict c s b := by
  intro apart
  have parent := others _ apart
  have known : b.header.previousBlockHash ∈ next.blocks ↔ b.header.previousBlockHash ∈ s.blocks := by
    rw [mem_blocks,mem_blocks,parent]
  simp only [verdict,known,parent,path_leaf grows others leaf other]
  cases path : s.pathToGenesis (b.hash c) with
  | none => rfl
  | some r =>
    cases r with
    | none => rfl
    | some chain =>
      dsimp only
      rw [replay_grows grows (branch_stored (path_branch.mp path))]

theorem ended_leaf (ended : Ended s) (own : ∀ x, next.getBlock (block.hash c) = some x → x = block)
    (away : block.hash c ≠ s.genesisHash) : Ended next := by
  intro k
  by_cases other : k = block.hash c
  · subst other
    cases stored : next.getBlock (block.hash c) with
    | none => exact ⟨false,[],.missing (by rw [Blockchain.parentLink,stored]; rfl)⟩
    | some x =>
      have equal := own x stored
      subst equal
      have ne : x.hash c ≠ next.genesisHash := grows.genesis ▸ away
      obtain ⟨rooted,path,walk⟩ := ended x.header.previousBlockHash
      have walk := (walk_leaf grows others leaf (leaf _ x stored ne)).mpr walk
      exact ⟨rooted,_,.link (by rw [Blockchain.parentLink,stored]; rfl) ne walk⟩
  · obtain ⟨rooted,path,walk⟩ := ended k
    exact ⟨rooted,path,(walk_leaf grows others leaf other).mpr walk⟩

end

theorem step_longest (longest : Longest c s) (fresh : block.hash c ∉ s.blocks) (leaf : Leaf c next block)
    (step : Step c s block next answer) : Longest c next := by
  intro tip chain ledger branch built
  by_cases other : tip = block.hash c
  · subst other
    have unstored : ¬ Branch s (block.hash c) chain := fun branch => fresh
      (mem_blocks.mpr (branch_stored branch _ (List.mem_of_getLast? branch.last)))
    cases step with
    | known known => exact absurd known fresh
    | orphan | refused => exact absurd branch unstored
    | adrift _ lost =>
      obtain ⟨trail,walk⟩ := lost
      cases (branch.deterministic walk).1
    | invalid _ branch' failed =>
      rw [branch'.unique branch,built] at failed
      cases failed
    | adopted _ branch' => exact Nat.le_of_eq (congrArg List.length (branch.unique branch'))
    | kept _ branch' _ short =>
      rw [branch.unique branch']
      exact short
  · have grows := step_grows step
    have branch := (walk_leaf grows (fun _ => step_others step) leaf other).mp branch
    rw [replay_grows grows (branch_stored branch)] at built
    exact Nat.le_trans (longest _ _ _ branch built) (step_length step)

theorem new_unstored (other : k ≠ (Blockchain.new c).genesisHash) : (Blockchain.new c).getBlock k = none := by
  rw [getBlock_new,if_neg other]

theorem new_delivered (c : Crates) : Delivered c [] (.new c) := by
  have valid := new_valid c
  refine ⟨valid,fun _ _ => rfl,fun b member => (by cases member),?_,?_⟩
  · intro k
    by_cases root : k = (Blockchain.new c).genesisHash
    · subst root
      exact ⟨true,_,.root (by rw [Blockchain.parentLink,valid.genesis]; rfl)⟩
    · exact ⟨false,[],.missing (by rw [Blockchain.parentLink,new_unstored root]; rfl)⟩
  · intro tip chain ledger branch _
    have single : ∀ k, ((Blockchain.new c).parentLink k).isSome →
        k ∈ ({(Blockchain.new c).genesisHash} : Finset Digest) := by
      intro k stored
      by_contra other
      rw [Blockchain.parentLink,new_unstored (by simpa using other)] at stored
      cases stored
    exact stored_length_le single branch.stored branch.nodup

theorem delivered_stored (delivered : Delivered c done s) (stored : s.getBlock k = some x)
    (other : k ≠ s.genesisHash) : x ∈ done ∧ x.hash c = k := by
  by_cases item : ∃ b ∈ done, b.hash c = k
  · obtain ⟨b,member,rfl⟩ := item
    obtain ⟨rfl,_⟩ := (delivered.settled b member x).mp stored
    exact ⟨member,rfl⟩
  · rw [delivered.foreign k fun b member equal => item ⟨b,member,equal⟩,
      new_unstored fun equal => other (equal.trans delivered.valid.rooted.symm)] at stored
    cases stored

theorem Delivery.init (delivery : Delivery c (done ++ [block])) : Delivery c done := by
  obtain ⟨distinct,away,parentFirst,few⟩ := delivery
  rw [List.map_append] at distinct away
  refine ⟨(List.nodup_append.mp distinct).1,fun member => away (List.mem_append_left _ member),parentFirst.init,?_⟩
  rw [List.length_append] at few
  omega

theorem Delivery.last (delivery : Delivery c (done ++ [block])) :
    block.hash c ≠ (Blockchain.createGenesisBlock c).hash c ∧ ∀ b ∈ done, b.hash c ≠ block.hash c := by
  obtain ⟨distinct,away,_,_⟩ := delivery
  rw [List.map_append] at distinct away
  refine ⟨fun equal => away (by simp [equal]),fun b member equal => ?_⟩
  exact (List.nodup_append.mp distinct).2.2 _ (List.mem_map_of_mem member) _ (by simp) equal

theorem delivered_fresh (delivery : Delivery c (done ++ [block])) (delivered : Delivered c done s) :
    block.hash c ∉ s.blocks := by
  obtain ⟨away,apart⟩ := delivery.last
  intro known
  obtain ⟨x,stored⟩ := mem_blocks.mp known
  obtain ⟨member,equal⟩ := delivered_stored delivered stored (delivered.valid.rooted ▸ away)
  exact apart x member equal

-- Whatever is stored besides genesis was delivered, so nothing names the last
-- block as its parent.
theorem delivered_leaf (delivery : Delivery c (done ++ [block])) (delivered : Delivered c done s)
    (genesis : next.genesisHash = s.genesisHash) (others : ∀ k, k ≠ block.hash c → next.getBlock k = s.getBlock k)
    (own : ∀ x, next.getBlock (block.hash c) = some x → x = block) : Leaf c next block := by
  have childless := delivery.parentFirst.last
  intro k x stored ne
  by_cases other : k = block.hash c
  · subst other
    obtain rfl := own x stored
    exact (childless x (by simp)).symm
  · rw [others k other] at stored
    obtain ⟨member,_⟩ := delivered_stored delivered stored (genesis ▸ ne)
    exact (childless x (List.mem_append_left _ member)).symm

theorem delivered_returns (delivery : Delivery c (done ++ [block])) (delivered : Delivered c done s) :
    ∃ next answer, s.addBlock c block = some (next,answer) := by
  have own : ∀ x, (s.store c block).getBlock (block.hash c) = some x → x = block := fun x stored =>
    (Option.some.inj (getBlock_store_self.symm.trans stored)).symm
  have leaf : Leaf c (s.store c block) block :=
    delivered_leaf delivery delivered rfl (fun _ => getBlock_store_ne) own
  have grows := store_grows (delivered_fresh delivery delivered)
  have away : block.hash c ≠ s.genesisHash := delivered.valid.rooted ▸ delivery.last.1
  obtain ⟨rooted,path,walk⟩ := ended_leaf grows (fun _ => getBlock_store_ne) leaf delivered.ended own away (block.hash c)
  exact addBlock_ends ⟨_,(chase_exact fun _ => link_stored).mpr ⟨rooted,path,walk,rfl⟩⟩

theorem delivered_step (delivery : Delivery c (done ++ [block])) (delivered : Delivered c done s) :
    ∃ next answer, s.addBlock c block = some (next,answer) ∧ Delivered c (done ++ [block]) next ∧
      verdict c next block = some answer ∧ ∀ b ∈ done, verdict c next b = verdict c s b := by
  obtain ⟨next,answer,ran⟩ := delivered_returns delivery delivered
  obtain ⟨away,apart⟩ := delivery.last
  have away : block.hash c ≠ s.genesisHash := delivered.valid.rooted ▸ away
  have childless := delivery.parentFirst.last
  have fresh := delivered_fresh delivery delivered
  have step := addBlock_sound ran
  have grows := step_grows step
  have others : ∀ k, k ≠ block.hash c → next.getBlock k = s.getBlock k := fun _ => step_others step
  have own : ∀ x, next.getBlock (block.hash c) = some x → x = block := fun x stored => ((step_own fresh step).mp stored).1
  have leaf := delivered_leaf delivery delivered grows.genesis others own
  refine ⟨next,answer,ran,⟨step_valid delivered.valid step,?_,?_,?_,?_⟩,?_,?_⟩
  · intro k off
    rw [others k fun equal => off block (by simp) equal.symm]
    exact delivered.foreign k fun b member => off b (List.mem_append_left _ member)
  · intro b member x
    have parent := others _ (childless b member).symm
    rw [parent]
    rcases List.mem_append.mp member with old | new
    · rw [others _ (apart b old)]
      exact delivered.settled b old x
    · obtain rfl := List.mem_singleton.mp new
      exact step_own fresh step
  · exact ended_leaf grows others leaf delivered.ended own away
  · exact step_longest delivered.longest fresh leaf step
  · exact step_verdict fresh (childless block (by simp)).symm step
  · intro b member
    exact verdict_leaf grows others leaf (apart b member) (childless b (List.mem_append_left _ member)).symm

theorem delivered_feed (delivery : Delivery c done) : ∃ s answers,
    feed (Blockchain.addBlock c) (.new c) done = some (s,answers) ∧ Delivered c done s ∧
      done.map (verdict c s) = answers.map some := by
  induction done using List.reverseRecOn with
  | nil => exact ⟨_,[],rfl,new_delivered c,rfl⟩
  | append_singleton done block ih =>
    obtain ⟨s,answers,fed,delivered,answered⟩ := ih delivery.init
    obtain ⟨next,answer,ran,delivered,last,kept⟩ := delivered_step delivery delivered
    refine ⟨next,answers ++ [answer],?_,delivered,?_⟩
    · rw [feed_append,fed]
      simp [feed,ran]
    · rw [List.map_append,List.map_append,← answered,List.map_congr_left kept]
      simp [last]

-- What is stored after a delivery: the genesis block, and the delivered blocks
-- that pass the tests against what is stored for their parents.
theorem delivery_stores (delivery : Delivery c done) : ∃ s answers,
    feed (Blockchain.addBlock c) (.new c) done = some (s,answers) ∧ ∀ k b, s.getBlock k = some b ↔
      k = s.genesisHash ∧ b = Blockchain.createGenesisBlock c ∨
      b ∈ done ∧ k = b.hash c ∧ Passes c b (s.getBlock b.header.previousBlockHash) := by
  obtain ⟨s,answers,fed,delivered,_⟩ := delivered_feed delivery
  refine ⟨s,answers,fed,fun k b => ⟨fun stored => ?_,fun either => ?_⟩⟩
  · by_cases root : k = s.genesisHash
    · rw [root,delivered.valid.genesis] at stored
      exact .inl ⟨root,(Option.some.inj stored).symm⟩
    · obtain ⟨member,rfl⟩ := delivered_stored delivered stored root
      exact .inr ⟨member,rfl,((delivered.settled b member b).mp stored).2⟩
  · rcases either with ⟨rfl,rfl⟩ | ⟨member,rfl,passes⟩
    · exact delivered.valid.genesis
    · exact (delivered.settled b member b).mpr ⟨rfl,passes⟩

section
variable {t : Blockchain} {other : List Block}

theorem delivered_unique (order : ParentFirst (Block.hash c) (fun block => block.header.previousBlockHash) done)
    (perm : done.Perm other) (one : Delivered c done s) (two : Delivered c other t) : s.blocks = t.blocks := by
  have same : s.getBlock = t.getBlock := by
    apply order.agree
    · intro k off
      rw [one.foreign k off,two.foreign k fun b member => off b (perm.mem_iff.mpr member)]
    · intro b member parent
      apply Option.ext
      intro x
      have here := two.settled b (perm.mem_iff.mp member) x
      rw [← parent] at here
      exact (one.settled b member x).trans here.symm
  exact Finmap.ext_lookup (congrFun same)

-- What the two states share is all that a verdict reads.
theorem verdict_congr (blocks : s.blocks = t.blocks) (genesis : s.genesisHash = t.genesisHash)
    (bootstrap : s.bootstrapUtxos = t.bootstrapUtxos) : verdict c s block = verdict c t block := by
  cases s; cases t
  dsimp only at blocks genesis bootstrap
  subst blocks genesis bootstrap
  rfl

end

theorem delivered_follows (delivered : Delivered c done s) (stored : s.getBlock k = some b)
    (other : k ≠ s.genesisHash) (parent : s.getBlock b.header.previousBlockHash = some p) : b.Follows c p := by
  obtain ⟨member,rfl⟩ := delivered_stored delivered stored other
  obtain ⟨_,passes⟩ := (delivered.settled b member b).mp stored
  have checked := ((Block.validate_exact _ _ _).mp passes.checked).1
  rwa [parent,Block.validateParent_some] at checked

theorem tip_height (delivered : Delivered c done s) (branch : Branch s tip chain) :
    ∃ b, s.getBlock tip = some b ∧ b.header.height = UInt64.ofNat (chain.length - 1) :=
  branch_height delivered.valid branch fun _ _ _ stored other parent => delivered_follows delivered stored other parent

theorem chain_short (delivered : Delivered c done s) (branch : Branch s tip chain) :
    chain.length ≤ done.length + 1 := by
  have bound : ∀ k, (s.parentLink k).isSome → k ∈ (s.genesisHash :: done.map (Block.hash c)).toFinset := by
    intro k linked
    obtain ⟨up,link⟩ := Option.isSome_iff_exists.mp linked
    obtain ⟨b,stored,_⟩ := Option.map_eq_some_iff.mp link
    rw [List.mem_toFinset,List.mem_cons]
    by_cases root : k = s.genesisHash
    · exact .inl root
    · obtain ⟨member,equal⟩ := delivered_stored delivered stored root
      exact .inr (List.mem_map.mpr ⟨b,member,equal⟩)
  calc chain.length
      ≤ (s.genesisHash :: done.map (Block.hash c)).toFinset.card := stored_length_le bound branch.stored branch.nodup
    _ ≤ (s.genesisHash :: done.map (Block.hash c)).length := List.toFinset_card_le _
    _ = done.length + 1 := by simp

theorem delivered_height (delivery : Delivery c done) (delivered : Delivered c done s) :
    s.currentHeight.toNat = s.bestChain.length - 1 := by
  obtain ⟨tip,b,branch,stored,height⟩ := delivered.valid.tip
  obtain ⟨b',stored',exact⟩ := tip_height delivered branch
  cases Option.some.inj (stored.symm.trans stored')
  have short := chain_short delivered branch
  have few := delivery.few
  rw [height,exact]
  exact UInt64.toNat_ofNat_of_lt' (by rw [UInt64.size]; omega)

-- `n` is the height of a stored block whose path to genesis replays.
def ReplayHeight (c : Crates) (s : Blockchain) (n : Nat) : Prop :=
  ∃ tip chain ledger, s.pathToGenesis tip = some (some chain) ∧ s.buildUtxoStateForChain c chain = .ok ledger ∧
    n = chain.length - 1

theorem delivered_greatest (delivery : Delivery c done) (delivered : Delivered c done s) :
    IsGreatest {n | ReplayHeight c s n} s.currentHeight.toNat := by
  rw [delivered_height delivery delivered]
  constructor
  · obtain ⟨tip,_,branch,_,_⟩ := delivered.valid.tip
    exact ⟨tip,_,_,path_branch.mpr branch,delivered.valid.replay,rfl⟩
  · intro n ⟨tip,chain,ledger,path,built,height⟩
    have longest := delivered.longest tip chain ledger (path_branch.mp path) built
    omega

theorem delivery_order_irrelevant {one two : List Block} (perm : one.Perm two) (first : Delivery c one)
    (second : Delivery c two) : ∃ s t answers replies,
      feed (Blockchain.addBlock c) (.new c) one = some (s,answers) ∧
      feed (Blockchain.addBlock c) (.new c) two = some (t,replies) ∧
      answers.length = one.length ∧ replies.length = two.length ∧
      (∀ block answer, (block,answer) ∈ one.zip answers ↔ (block,answer) ∈ two.zip replies) ∧
      s.blocks = t.blocks ∧ s.headers = t.headers ∧ s.currentHeight = t.currentHeight ∧
      IsGreatest {n | ReplayHeight c s n} s.currentHeight.toNat := by
  obtain ⟨s,answers,fed,here,answered⟩ := delivered_feed first
  obtain ⟨t,replies,fed',there,replied⟩ := delivered_feed second
  have blocks := delivered_unique first.parentFirst perm here there
  have genesis := here.valid.rooted.trans there.valid.rooted.symm
  have bootstrap := here.valid.bootstrap.trans there.valid.bootstrap.symm
  refine ⟨s,t,answers,replies,fed,fed',(feed_run fed).2.symm,(feed_run fed').2.symm,?_,blocks,?_,?_,
    delivered_greatest first here⟩
  · intro block answer
    rw [zip_answers answered,zip_answers replied,perm.mem_iff,verdict_congr blocks genesis bootstrap]
  · apply Finmap.ext_lookup
    intro k
    rw [here.valid.headers,there.valid.headers,Blockchain.getBlock,blocks]
    rfl
  · have greatest := delivered_greatest second there
    have same : ∀ n, ReplayHeight c s n ↔ ReplayHeight c t n := by
      intro n
      cases s; cases t
      dsimp only at blocks genesis bootstrap
      subst blocks genesis bootstrap
      rfl
    have sets : {n | ReplayHeight c s n} = {n | ReplayHeight c t n} := Set.ext same
    rw [← sets] at greatest
    exact UInt64.toNat_inj.mp ((delivered_greatest first here).unique greatest)

theorem fork_delivery : Delivery reference [firstBlock,rivalBlock,heirBlock] ∧
    Delivery reference [rivalBlock,heirBlock,firstBlock] := by
  constructor
  · exact ⟨by decide +kernel,by decide +kernel,⟨by decide +kernel,by decide +kernel⟩,by decide⟩
  · exact ⟨by decide +kernel,by decide +kernel,⟨by decide +kernel,by decide +kernel⟩,by decide⟩

theorem delivery_stores_fork : ∃ s answers,
    feed (Blockchain.addBlock reference) genesisState [firstBlock,rivalBlock,heirBlock] = some (s,answers) ∧
    Passes reference heirBlock (s.getBlock heirBlock.header.previousBlockHash) := by
  obtain ⟨s,answers,fed,stored⟩ := delivery_stores fork_delivery.1
  have held : (feed (Blockchain.addBlock reference) (.new reference) [firstBlock,rivalBlock,heirBlock]).map
      (fun pair => pair.1.getBlock (heirBlock.hash reference)) = some (some heirBlock) := by decide +kernel
  rw [fed] at held
  rcases (stored _ _).mp (Option.some.inj held) with ⟨_,genesis⟩ | ⟨_,_,passes⟩
  · exact absurd genesis (by decide +kernel)
  · exact ⟨s,answers,fed,passes⟩

theorem delivery_order_irrelevant_fork : ∃ s t answers replies,
    feed (Blockchain.addBlock reference) genesisState [firstBlock,rivalBlock,heirBlock] = some (s,answers) ∧
    feed (Blockchain.addBlock reference) genesisState [rivalBlock,heirBlock,firstBlock] = some (t,replies) ∧
    s.currentHeight = t.currentHeight := by
  have perm : [firstBlock,rivalBlock,heirBlock].Perm [rivalBlock,heirBlock,firstBlock] :=
    @List.perm_append_comm _ [firstBlock] [rivalBlock,heirBlock]
  obtain ⟨s,t,answers,replies,fed,fed',_,_,_,_,_,height,_⟩ :=
    delivery_order_irrelevant perm fork_delivery.1 fork_delivery.2
  exact ⟨s,t,answers,replies,fed,fed',height⟩

end BlindEye.DeliveryOrder
