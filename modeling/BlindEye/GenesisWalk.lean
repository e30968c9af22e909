import BlindEye.ChainState

namespace BlindEye.GenesisWalk
open AddBlock ChainState ParentWalk

variable {c : Crates} {s : Blockchain} {block : Block} {tip : Digest} {headers wider : Set BlockHeader}

def headerHash (c : Crates) (header : BlockHeader) : Digest := BlindHash.hash c header.serialize

-- Among some headers, `down` names `up` as its parent.
def Links (c : Crates) (headers : Set BlockHeader) (up down : BlockHeader) : Prop :=
  up ∈ headers ∧ down ∈ headers ∧ down.previousBlockHash = headerHash c up

-- None of the headers is reachable from itself.
def CycleFree (c : Crates) (headers : Set BlockHeader) : Prop :=
  ∀ header, ¬ Relation.TransGen (Links c headers) header header

theorem CycleFree.fewer (free : CycleFree c wider) (subset : headers ⊆ wider) : CycleFree c headers := by
  intro header cycle
  apply free header
  have wide : ∀ up down, Links c headers up down → Links c wider up down :=
    fun _ _ link => ⟨subset link.1,subset link.2.1,link.2.2⟩
  exact Relation.TransGen.mono wide _ _ cycle

theorem cycleFree_ranked (rank : BlockHeader → Nat) (rises : ∀ up down, Links c headers up down → rank up < rank down) :
    CycleFree c headers := by
  have general : ∀ up down, Relation.TransGen (Links c headers) up down → rank up < rank down := by
    intro up down path
    induction path with
    | single link => exact rises _ _ link
    | tail _ link ih => exact ih.trans (rises _ _ link)
  exact fun header cycle => Nat.lt_irrefl _ (general header header cycle)

def headerAt (previous : Digest) : BlockHeader := ⟨previous,.zero,0,0,0,0⟩

-- There are fewer hashes than headers, so the headers of the world do have a
-- cycle; a state holds some of them.
theorem world_cycles (c : Crates) : ¬ CycleFree c Set.univ := by
  have finite : Finite Digest := by
    let code : Digest → List.Vector UInt8 32 := fun digest => ⟨digest.bytes,digest.size⟩
    exact Finite.of_injective code fun x y equal => Digest.ext_bytes (congrArg Subtype.val equal)
  let next : Digest → Digest := fun digest => headerHash c (headerAt digest)
  obtain ⟨i,j,differ,equal⟩ := Finite.exists_ne_map_eq_of_infinite fun n => next^[n] Digest.zero
  have chain : ∀ n d, Relation.TransGen (Links c Set.univ) (headerAt d) (headerAt (next^[n + 1] d)) := by
    intro n
    induction n with
    | zero => exact fun d => .single ⟨trivial,trivial,rfl⟩
    | succ n ih =>
      intro d
      rw [Function.iterate_succ_apply' next (n + 1)]
      exact (ih d).tail ⟨trivial,trivial,rfl⟩
  have around : ∀ i j, i < j → next^[i] Digest.zero = next^[j] Digest.zero → ¬ CycleFree c Set.univ := by
    intro i j below same free
    obtain ⟨n,rfl⟩ := Nat.exists_eq_add_of_lt below
    have cycle := chain n (next^[i] Digest.zero)
    rw [← Function.iterate_add_apply,show n + 1 + i = i + n + 1 by omega,← same] at cycle
    exact free _ cycle
  rcases Nat.lt_or_gt_of_ne differ with below | above
  · exact around i j below equal
  · exact around j i above equal.symm

def storedHeaders (s : Blockchain) : Set BlockHeader := fun header => ∃ k b, s.getBlock k = some b ∧ b.header = header

theorem stored_acyclic (keyed : ∀ k b, s.getBlock k = some b → b.hash c = k) (free : CycleFree c (storedHeaders s)) :
    Acyclic s := by
  have general : ∀ start last, Relation.TransGen (fun up k => s.parentLink k = some up) start last →
      ∀ b, s.getBlock start = some b → ∃ other, s.getBlock last = some other ∧
        Relation.TransGen (Links c (storedHeaders s)) b.header other.header := by
    have one : ∀ up k b, s.parentLink k = some up → s.getBlock up = some b →
        ∃ child, s.getBlock k = some child ∧ Links c (storedHeaders s) b.header child.header := by
      intro up k b link stored
      obtain ⟨child,found,names⟩ := Option.map_eq_some_iff.mp link
      exact ⟨child,found,⟨up,b,stored,rfl⟩,⟨k,child,found,rfl⟩,names.trans (keyed up b stored).symm⟩
    intro start last path b stored
    induction path with
    | single link =>
      obtain ⟨child,found,named⟩ := one _ _ _ link stored
      exact ⟨child,found,.single named⟩
    | tail _ link ih =>
      obtain ⟨middle,there,path⟩ := ih
      obtain ⟨child,found,named⟩ := one _ _ _ link there
      exact ⟨child,found,path.tail named⟩
  intro k cycle
  obtain ⟨_,_,link⟩ := Relation.TransGen.tail'_iff.mp cycle
  obtain ⟨b,stored,_⟩ := Option.map_eq_some_iff.mp link
  obtain ⟨again,found,path⟩ := general k k cycle b stored
  rw [stored] at found
  cases found
  exact free _ path

-- Where the block stored under a hash says that its parent is; an unknown hash
-- stays.
def previous (s : Blockchain) (k : Digest) : Digest := (s.parentLink k).getD k

theorem previous_follows : ∀ k up, s.parentLink k = some up → previous s k = up := by
  intro k up link
  simp [previous,link]

theorem link_exact : (s.parentLink k).isSome ↔ k ∈ s.blocks := by
  rw [Blockchain.parentLink,Option.isSome_map,Blockchain.getBlock,Finmap.lookup_isSome]

-- Following the links from the tip comes to a hash that is not stored, and not to
-- the genesis hash before.
def Strays (s : Blockchain) (tip : Digest) : Prop :=
  ∃ n, (previous s)^[n] tip ∉ s.blocks ∧ ∀ i < n, (previous s)^[i] tip ≠ s.genesisHash

-- The list of the walk from the tip to genesis, genesis first.
structure Traces (s : Blockchain) (tip : Digest) (path : List Digest) (n : Nat) : Prop where
  visited : path = ((List.range (n + 1)).map fun i => (previous s)^[i] tip).reverse
  genesis : (previous s)^[n] tip = s.genesisHash
  stored : ∀ i ≤ n, (previous s)^[i] tip ∈ s.blocks
  first : ∀ i < n, (previous s)^[i] tip ≠ s.genesisHash
  distinct : path.Nodup

theorem branch_traces (branch : Branch s tip path) : ∃ n, path.length = n + 1 ∧ Traces s tip path n := by
  have visits := branch.visits previous_follows
  have course := branch.course previous_follows
  obtain ⟨n,length⟩ := Nat.exists_eq_add_one_of_ne_zero (branch.reads_pos.ne')
  have length : path.length = n + 1 := length
  have stop : reads true path - 1 = n := by simp [reads,length]
  rw [stop] at course
  rw [length] at visits
  obtain ⟨genesis,known⟩ := course.arrives rfl
  refine ⟨n,length,visits,genesis,?_,fun i below => (course.before i below).2,branch.nodup⟩
  intro i within
  rcases Nat.lt_or_eq_of_le within with below | rfl
  · exact link_exact.mp (course.before i below).1
  · rw [genesis]
    exact link_exact.mp known

theorem Traces.stays (traces : Traces s tip path n) : ¬ Strays s tip := by
  intro ⟨m,unknown,before⟩
  rcases Nat.lt_or_ge n m with passed | within
  · exact before n passed traces.genesis
  · exact unknown (traces.stored m within)

theorem adrift_strays (adrift : Adrift s tip) : Strays s tip := by
  obtain ⟨trail,walk⟩ := adrift
  have course := walk.course previous_follows
  refine ⟨_,fun known => ?_,fun i below => (course.before i below).2⟩
  have stored := link_exact.mpr known
  rw [course.strays rfl] at stored
  cases stored

theorem genesis_walk_exact (reached : Reachable c s) (free : CycleFree c (storedHeaders s)) :
    (∀ tip, ∃ r lookups, lookups ≤ s.blocks.keys.card + 1 ∧ s.pathToGenesis tip = some r ∧
      (∀ fuel, chase s.parentLink s.genesisHash fuel tip = if lookups ≤ fuel then some r else none) ∧
      (r = none ↔ Strays s tip) ∧ ∀ path, r = some path → ∃ n, Traces s tip path n) ∧
    ∀ block, CycleFree c (insert block.header (storedHeaders s)) →
      ∃ next answer, s.addBlock c block = some (next,answer) := by
  have keyed := (reached_valid reached).keyed
  constructor
  · intro tip
    obtain ⟨r,ended⟩ : ∃ r, s.pathToGenesis tip = some r :=
      chase_returns (fun _ => link_stored) (stored_acyclic keyed free)
    obtain ⟨rooted,path,walk,rfl⟩ := chase_sound ended
    have within : reads rooted path ≤ s.blocks.keys.card + 1 := by
      by_contra more
      rw [Blockchain.pathToGenesis,chase_reads walk,if_neg more] at ended
      cases ended
    refine ⟨_,_,within,ended,chase_reads walk,?_⟩
    cases rooted with
    | false =>
      refine ⟨iff_of_true rfl (adrift_strays ⟨path,walk⟩),?_⟩
      intro other found
      cases found
    | true =>
      obtain ⟨n,_,traces⟩ := branch_traces walk
      refine ⟨iff_of_false (Option.some_ne_none _) traces.stays,?_⟩
      intro other found
      cases found
      exact ⟨n,traces⟩
  · intro block free
    apply addBlock_returns
    apply stored_acyclic (c := c)
    · intro k b stored
      rcases store_stored stored with old | ⟨rfl,rfl⟩
      · exact keyed k b old
      · rfl
    · apply free.fewer
      rintro _ ⟨k,b,stored,rfl⟩
      rcases store_stored stored with old | ⟨_,rfl⟩
      · exact Set.mem_insert_of_mem _ ⟨k,b,old,rfl⟩
      · exact Set.mem_insert _ _

-- Of the genesis block and the first block only one names the other.
theorem firstBlock_ranked {headers : Set BlockHeader} (only : ∀ header ∈ headers,
      header = (Blockchain.createGenesisBlock reference).header ∨ header = firstBlock.header) :
    CycleFree reference headers := by
  have unnamed : ∀ up, up = (Blockchain.createGenesisBlock reference).header ∨ up = firstBlock.header →
      (Blockchain.createGenesisBlock reference).header.previousBlockHash ≠ headerHash reference up := by
    rintro up (rfl | rfl)
    · decide +kernel
    · decide +kernel
  have itself : firstBlock.header.previousBlockHash ≠ headerHash reference firstBlock.header := by decide +kernel
  refine cycleFree_ranked (fun header => header.height.toNat) ?_
  intro up down link
  obtain ⟨above,below,names⟩ := link
  rcases only down below with rfl | rfl
  · exact absurd names (unnamed up (only up above))
  · rcases only up above with rfl | rfl
    · decide +kernel
    · exact absurd names itself

theorem genesis_walk_exact_firstBlock : ∃ s, s.bestChain.length = 2 ∧ Reachable reference s ∧
    CycleFree reference (storedHeaders s) ∧ ∃ r lookups, lookups ≤ s.blocks.keys.card + 1 ∧
      s.pathToGenesis (firstBlock.hash reference) = some r ∧ (r = none ↔ Strays s (firstBlock.hash reference)) := by
  obtain ⟨s,ran,length⟩ := firstBlock_accepted
  have reached : Reachable reference s := ⟨_,.step .nil trivial ran⟩
  have free : CycleFree reference (storedHeaders s) := by
    apply firstBlock_ranked
    rintro _ ⟨k,b,stored,rfl⟩
    rcases step_stored (addBlock_sound ran) stored with old | ⟨_,_,rfl⟩
    · rw [show genesisState = .new reference from rfl,getBlock_new] at old
      split at old
      · exact .inl (congrArg Block.header (Option.some.inj old).symm)
      · cases old
    · exact .inr rfl
  obtain ⟨r,lookups,within,ended,_,none,_⟩ := (genesis_walk_exact reached free).1 (firstBlock.hash reference)
  exact ⟨s,length,reached,free,r,lookups,within,ended,none⟩

end BlindEye.GenesisWalk
