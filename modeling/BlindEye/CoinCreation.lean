import BlindEye.CoinHistory

namespace BlindEye.CoinCreation
open AddBlock ChainState CoinHistory SpendHistory FiniteMap ParentWalk

variable {c : Crates} {s next : Blockchain} {block : Block} {chain : List Digest} {utxoSet after : UtxoSet}

-- The ledger in the middle of a block, once the transactions of `before` are applied.
def running (c : Crates) (block : Block) (utxoSet : UtxoSet) (before : List Transaction) : UtxoSet :=
  before.foldl (fun utxoSet tx => applyTransaction c tx utxoSet block.header.height) utxoSet

def InsertsFresh (c : Crates) (utxoSet : UtxoSet) (block : Block) : Prop :=
  ∀ before tx after, block.transactions = before ++ tx :: after →
    FreshAll (eraseAll (running c block utxoSet before) tx.spends) (tx.created c block.header.height)

-- The coinbase of the block stored under `k` pays `miner` with its first
-- output, and no transaction of the best chain spends that output.
def Rewards (c : Crates) (s : Blockchain) (miner : List UInt8) (k : Digest) : Prop :=
  ∃ b coinbase rest output others, s.getBlock k = some b ∧ b.transactions = coinbase :: rest ∧
    coinbase.outputs = output :: others ∧ output.scriptPubkey = miner ∧
    ⟨coinbase.txid c,0⟩ ∉ (transactionsOn s s.bestChain).flatMap Transaction.spends

def HoldsRewards (c : Crates) (s : Blockchain) : Prop :=
  ∀ (miner : List UInt8) (paid : List Digest), paid.Sublist s.bestChain → (∀ k ∈ paid, Rewards c s miner k) →
    ∃ outpoints : List OutPoint, outpoints.Nodup ∧ outpoints.length = paid.length ∧
      ∀ o ∈ outpoints, ∃ utxo, s.utxoSet.lookup o = some utxo ∧ utxo.output.scriptPubkey = miner

-- `vout as u32` keeps the indices of a transaction's outputs apart.
def Indexed (posted : List Entry) : Prop := ∀ entry ∈ posted, entry.1.outputs.length ≤ 2^32

-- What a chain must be like when it becomes the best one.
structure FreshStep (c : Crates) (s : Blockchain) (block : Block) : Prop where
  coinbases : CoinbaseFresh c s block
  indexed : ∀ chain, Adopts c s block chain → Indexed (entriesOn (s.store c block) chain)

instance : Decidable (Indexed posted) := inferInstanceAs (Decidable (∀ entry ∈ posted, _))

instance : Decidable (FreshStep c s block) :=
  decidable_of_iff (CoinbaseFresh c s block ∧
      ∀ chain, Adopts c s block chain → Indexed (entriesOn (s.store c block) chain))
    ⟨fun both => ⟨both.1,both.2⟩,fun fresh => ⟨fresh.coinbases,fresh.indexed⟩⟩

theorem made_nodup {tx : Transaction} (indexed : tx.outputs.length ≤ 2^32) : (made (creates c) (tx,height)).Nodup := by
  have keys : made (creates c) (tx,height) =
      (List.range' 0 tx.outputs.length).map fun vout => (⟨tx.txid c,UInt32.ofNat vout⟩ : OutPoint) := by
    rw [← List.zipIdx_map_snd 0 tx.outputs,List.map_map]
    simp [made,creates,Transaction.created,Function.comp_def]
  rw [keys]
  refine List.Nodup.map_on ?_ List.nodup_range'
  intro i first j second equal
  have small : ∀ k ∈ List.range' 0 tx.outputs.length, k < UInt32.size := by
    intro k member
    have := (List.mem_range'_1.mp member).2
    rw [UInt32.size]
    omega
  have same := congrArg (fun o => o.vout.toNat) equal
  simpa [UInt32.toNat_ofNat_of_lt' (small i first),UInt32.toNat_ofNat_of_lt' (small j second)] using same

theorem reached_coinbases (reached : Reached c (FreshStep c) s) : Reached c (CoinbaseFresh c) s := by
  obtain ⟨calls,path⟩ := reached
  exact ⟨calls,path.weaken fun _ _ => FreshStep.coinbases⟩

theorem new_indexed (c : Crates) : Indexed (entriesOn (.new c) (Blockchain.new c).bestChain) := by
  intro entry member
  rw [new_entries] at member
  obtain rfl := List.mem_singleton.mp member
  exact Nat.one_le_two_pow

theorem reached_few (reached : Reached c (FreshStep c) s) : Indexed (entriesOn s s.bestChain) := by
  refine reached_best (motive := fun s chain => Indexed (entriesOn s chain)) (new_indexed c) ?_
    (fun _ _ chain fresh adopts => fresh.indexed chain adopts) reached
  intro s next chain grows stored indexed
  rw [entries_grows grows stored]
  exact indexed

theorem reached_indexed (reached : Reached c (FreshStep c) s) :
    ∀ entry ∈ entriesOn s s.bestChain, (made (creates c) entry).Nodup :=
  fun entry member => made_nodup (reached_few reached entry member)

-- A block accepted onto the tip makes the best chain one block longer.
theorem tip_chain (valid : Valid c s) (onTip : s.bestChain.getLast? = some block.header.previousBlockHash)
    (step : Step c s block next (.ok ())) : next.bestChain = s.bestChain ++ [block.hash c] ∧
      next.getBlock (block.hash c) = some block := by
  obtain ⟨tip,_,best,_,_⟩ := valid.tip
  have tipIs : tip = block.header.previousBlockHash := Option.some.inj (best.last.symm.trans onTip)
  subst tipIs
  have extended : ∀ chain, Admitted c s block → Branch (s.store c block) (block.hash c) chain →
      chain = s.bestChain ++ [block.hash c] := fun _ admitted branch =>
    branch.unique (store_branch valid admitted best)
  cases step with
  | adopted admitted branch => exact ⟨extended _ admitted branch,getBlock_store_self⟩
  | kept admitted branch _ short =>
    rw [extended _ admitted branch] at short
    simp at short

theorem tip_entries (valid : Valid c s) (onTip : s.bestChain.getLast? = some block.header.previousBlockHash)
    (step : Step c s block next (.ok ())) :
    entriesOn next next.bestChain = entriesOn s s.bestChain ++ entriesOf block := by
  obtain ⟨tip,_,best,_,_⟩ := valid.tip
  obtain ⟨extended,stored⟩ := tip_chain valid onTip step
  have kept := entries_grows (step_grows step) (branch_stored best)
  rw [extended,← kept]
  simp [entriesOn,stored]

theorem posts_running (block : Block) (transactions : List Transaction) :
    (transactions.map fun tx => (tx,block.header.height)).foldl (post spends (creates c)) utxoSet =
      running c block utxoSet transactions := by
  rw [List.foldl_map]
  rfl

theorem inserts_fresh (reached : Reached c (FreshStep c) next) (noCollision : CollisionFree c next)
    (before : Posted c (entriesOn s s.bestChain) s.utxoSet)
    (entries : entriesOn next next.bestChain = entriesOn s s.bestChain ++ entriesOf block) :
    InsertsFresh c s.utxoSet block := by
  have distinct := reached_distinct (reached_coinbases reached) noCollision
  have history := reached_posted (reached_valid reached)
  have own : ∀ entry ∈ entriesOn next next.bestChain, (made (creates c) entry).Nodup := reached_indexed reached
  rw [entries] at distinct history own
  intro earlier tx later split
  have items : entriesOn s s.bestChain ++ entriesOf block = (entriesOn s s.bestChain ++
      earlier.map fun tx => (tx,block.header.height)) ++ [(tx,block.header.height)] ++
      later.map fun tx => (tx,block.header.height) := by simp [entriesOf,split]
  rw [items] at distinct history own
  have upTo := history_init (history_init history)
  rw [List.foldl_append,← history_fold before,posts_running] at upTo
  exact fresh_post upTo (separate_distinct distinct).init (own _ (by simp))

theorem entries_count (reached : Reached c (FreshStep c) s) (noCollision : CollisionFree c s) :
    s.utxoSet.keys.card + ((entriesOn s s.bestChain).flatMap spends).length =
      ((entriesOn s s.bestChain).flatMap (creates c)).length :=
  history_count (reached_posted (reached_valid reached))
    (separate_distinct (reached_distinct (reached_coinbases reached) noCollision)) (reached_indexed reached)

theorem block_count (before : Reached c (FreshStep c) s) (after : Reached c (FreshStep c) next)
    (grows : Grows s next) (noCollision : CollisionFree c next)
    (entries : entriesOn next next.bestChain = entriesOn s s.bestChain ++ entriesOf block) :
    next.utxoSet.keys.card + (block.transactions.flatMap Transaction.spends).length =
      s.utxoSet.keys.card + (block.transactions.flatMap Transaction.outputs).length := by
  have earlier := entries_count before (noCollision.mono fun bytes inside => by
    obtain ⟨k,b,stored,rest⟩ := inside
    exact ⟨k,b,grows.blocks k b stored,rest⟩)
  have later := entries_count after noCollision
  have spent : (entriesOf block).flatMap spends = block.transactions.flatMap Transaction.spends := by
    rw [entriesOf,List.flatMap_map]
    rfl
  have made : ((entriesOf block).flatMap (creates c)).length = (block.transactions.flatMap Transaction.outputs).length := by
    rw [entriesOf,List.flatMap_map,List.length_flatMap,List.length_flatMap]
    simp [creates,Transaction.created]
  rw [entries,List.flatMap_append,List.flatMap_append,List.length_append,List.length_append,spent,made] at later
  omega

def rewardOf (c : Crates) (s : Blockchain) (k : Digest) : OutPoint :=
  match (s.getBlock k).map Block.transactions with
  | some (coinbase :: _) => ⟨coinbase.txid c,0⟩
  | _ => ⟨.zero,0⟩

theorem rewards_distinct (distinct : ((entriesOn s chain).map fun entry => entry.1.txid c).Nodup)
    {paid : List Digest} (sub : paid.Sublist chain)
    (nonempty : ∀ k ∈ paid, ∃ b coinbase rest, s.getBlock k = some b ∧ b.transactions = coinbase :: rest) :
    (paid.map (rewardOf c s)).Nodup := by
  rw [entriesOn,List.map_flatMap] at distinct
  refine List.pairwise_map.mpr (((List.nodup_flatMap.mp distinct).2.sublist sub).imp_of_mem ?_)
  intro k k' first second apart equal
  obtain ⟨b,coinbase,rest,stored,transactions⟩ := nonempty k first
  obtain ⟨b',coinbase',rest',stored',transactions'⟩ := nonempty k' second
  have same : coinbase.txid c = coinbase'.txid c := by
    have := congrArg OutPoint.txid equal
    simpa [rewardOf,stored,stored',transactions,transactions'] using this
  apply apart (a := coinbase.txid c)
  · simp [stored,entriesOf,transactions]
  · simp [stored',entriesOf,transactions',same]

theorem holds_rewards (reached : Reached c (FreshStep c) s) (noCollision : CollisionFree c s) : HoldsRewards c s := by
  have distinct := reached_distinct (reached_coinbases reached) noCollision
  have held := unspent_held (reached_posted (reached_valid reached)) (separate_distinct distinct) (reached_indexed reached)
  intro miner paid sub rewarded
  have nonempty : ∀ k ∈ paid, ∃ b coinbase rest, s.getBlock k = some b ∧ b.transactions = coinbase :: rest := by
    intro k member
    obtain ⟨b,coinbase,rest,_,_,stored,transactions,_⟩ := rewarded k member
    exact ⟨b,coinbase,rest,stored,transactions⟩
  refine ⟨paid.map (rewardOf c s),rewards_distinct distinct sub nonempty,by simp,?_⟩
  intro o member
  obtain ⟨k,inside,rfl⟩ := List.mem_map.mp member
  obtain ⟨b,coinbase,rest,output,others,stored,transactions,outputs,pays,unspent⟩ := rewarded k inside
  have entry : (coinbase,b.header.height) ∈ entriesOn s s.bestChain :=
    List.mem_flatMap.mpr ⟨k,sub.subset inside,by simp [stored,entriesOf,transactions]⟩
  have reward : rewardOf c s k = ⟨coinbase.txid c,0⟩ := by simp [rewardOf,stored,transactions]
  refine ⟨⟨output,b.header.height,coinbase.inputs.isEmpty⟩,?_,pays⟩
  rw [reward]
  refine held _ entry (⟨coinbase.txid c,0⟩,⟨output,b.header.height,coinbase.inputs.isEmpty⟩) ?_ ?_
  · simp [creates,Transaction.created,outputs]
  · rw [transactionsOn,List.flatMap_map] at unspent
    exact unspent

theorem accepted_creates_fresh (reached : Reached c (FreshStep c) s) (fresh : FreshStep c s block)
    (onTip : s.bestChain.getLast? = some block.header.previousBlockHash)
    (accepted : s.addBlock c block = some (next,.ok ())) (noCollision : CollisionFree c next) :
    InsertsFresh c s.utxoSet block ∧
    next.utxoSet.keys.card + (block.transactions.flatMap Transaction.spends).length =
      s.utxoSet.keys.card + (block.transactions.flatMap Transaction.outputs).length ∧
    HoldsRewards c next := by
  have valid := reached_valid reached
  have step := addBlock_sound accepted
  have entries := tip_entries valid onTip step
  have after : Reached c (FreshStep c) next := by
    obtain ⟨calls,path⟩ := reached
    exact ⟨_,.step path fresh accepted⟩
  exact ⟨inserts_fresh after noCollision (reached_posted valid) entries,
    block_count reached after (step_grows step) noCollision entries,holds_rewards after noCollision⟩

-- The block spends one coin and makes two.
theorem accepted_creates_fresh_payBlock : ∃ s next : Blockchain, s.addBlock reference payBlock = some (next,.ok ()) ∧
    InsertsFresh reference s.utxoSet payBlock ∧ next.utxoSet.keys.card = s.utxoSet.keys.card + 1 ∧
    HoldsRewards reference next := by
  have fed : (Runs.feed (fun s block => if FreshStep reference s block then s.addBlock reference block else none)
      genesisState [earnBlock]).bind (fun pair => (pair.1.addBlock reference payBlock).map fun later =>
        (decide (FreshStep reference pair.1 payBlock ∧ pair.1.bestChain.getLast? = some payBlock.header.previousBlockHash),
          later.2)) = some (true,.ok ()) := by decide +kernel
  obtain ⟨⟨s,answers⟩,ran,rest⟩ := Option.bind_eq_some_iff.mp fed
  obtain ⟨⟨next,answer⟩,accepted,facts⟩ := Option.map_eq_some_iff.mp rest
  obtain ⟨ready,rfl⟩ := Prod.mk.inj facts
  obtain ⟨fresh,onTip⟩ := of_decide_eq_true ready
  obtain ⟨path,lengths⟩ := Runs.feed_run ran
  have before := path.guarded
  have noCollision : CollisionFree reference next := by
    apply collisionFree_run (before.step fresh accepted)
    rw [List.map_append,List.map_fst_zip (Nat.le_of_eq lengths)]
    decide +kernel
  obtain ⟨inserts,count,rewards⟩ := accepted_creates_fresh ⟨_,before⟩ fresh onTip accepted noCollision
  have spent : (payBlock.transactions.flatMap Transaction.spends).length = 1 := by decide +kernel
  have made : (payBlock.transactions.flatMap Transaction.outputs).length = 2 := by decide +kernel
  rw [spent,made] at count
  exact ⟨s,next,accepted,inserts,by omega,rewards⟩

-- The second block of a miner that keeps its address.
def repeatBlock : Block := blockOn (firstBlock.hash reference) 2 [createCoinbaseTransaction 2 100 [1]]

theorem repeatBlock_overwrites : ∃ s next, Reachable reference s ∧
    s.bestChain.getLast? = some repeatBlock.header.previousBlockHash ∧
    s.addBlock reference repeatBlock = some (next,.ok ()) ∧ CollisionFree reference next ∧
    ¬ InsertsFresh reference s.utxoSet repeatBlock ∧ next.utxoSet.keys.card = s.utxoSet.keys.card := by
  have fed : (Runs.feed (Blockchain.addBlock reference) genesisState [firstBlock]).bind (fun pair =>
      (pair.1.addBlock reference repeatBlock).map fun later => (decide (pair.1.bestChain.getLast? =
        some repeatBlock.header.previousBlockHash ∧ later.2 = .ok () ∧
        (⟨(createCoinbaseTransaction 2 100 [1]).txid reference,0⟩ : OutPoint) ∈ pair.1.utxoSet ∧
        later.1.utxoSet.keys.card = pair.1.utxoSet.keys.card))) = some true := by decide +kernel
  obtain ⟨⟨s,answers⟩,ran,rest⟩ := Option.bind_eq_some_iff.mp fed
  obtain ⟨⟨next,answer⟩,accepted,facts⟩ := Option.map_eq_some_iff.mp rest
  obtain ⟨onTip,rfl,stored,count⟩ := of_decide_eq_true facts
  have path := (Runs.feed_run ran).1
  refine ⟨s,next,⟨_,path⟩,onTip,accepted,?_,?_,count⟩
  · apply collisionFree_run (.step path trivial accepted)
    rw [List.map_append,List.map_fst_zip (Nat.le_of_eq (Runs.feed_run ran).2)]
    decide +kernel
  · intro fresh
    have first := (fresh [] (createCoinbaseTransaction 2 100 [1]) [] rfl).1
    exact first stored

end BlindEye.CoinCreation
