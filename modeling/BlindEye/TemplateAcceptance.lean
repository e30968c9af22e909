import BlindEye.BlockSelection
import BlindEye.DeliveryOrder
import BlindEye.PoolSources

namespace BlindEye.TemplateAcceptance
open AddBlock ChainState MempoolRules SharedTurns CoinOrigin PoolInvariants PoolSources LedgerRules Emission
open BlockSelection (selection_picks)

variable {c : Crates} {pool : Mempool} {known : Set Transaction} {utxoSet mid : UtxoSet} {tx : Transaction}
  {entries values : List MempoolEntry} {txs : List Transaction} {held other : Set OutPoint} {s : Blockchain}
  {block : Block} {template : BlockTemplate} {entry : MempoolEntry}

-- Every input is there, or is made by a transaction that stands before.
def Fed (c : Crates) (held : Set OutPoint) (txs : List Transaction) : Prop :=
  ∀ before tx later, txs = before ++ tx :: later → ∀ o ∈ tx.spends, o ∈ held ∨ ∃ earlier ∈ before, o ∈ outpoints c earlier

def totalPaid (entries : List MempoolEntry) : Nat := (entries.map fun entry => entry.feePaid.toNat).sum

abbrev Separated (entries : List MempoolEntry) : Prop :=
  entries.Pairwise fun one two => one.transaction.spends.Disjoint two.transaction.spends

theorem fed_cons : Fed c held (tx :: txs) ↔
    (∀ o ∈ tx.spends, o ∈ held) ∧ Fed c (held ∪ {o | o ∈ outpoints c tx}) txs := by
  constructor
  · intro fed
    constructor
    · intro o member
      rcases fed [] tx txs rfl o member with here | ⟨_,nothing,_⟩
      · exact here
      · cases nothing
    · intro before t later split o member
      rcases fed (tx :: before) t later (by rw [split]; rfl) o member with here | ⟨earlier,inside,makes⟩
      · exact .inl (.inl here)
      · rcases List.mem_cons.mp inside with rfl | inside
        · exact .inl (.inr makes)
        · exact .inr ⟨earlier,inside,makes⟩
  · intro both before t later split o member
    obtain ⟨first,rest⟩ := both
    cases before with
    | nil => cases split; exact .inl (first o member)
    | cons head before =>
      cases split
      rcases rest before t later rfl o member with (here | makes) | ⟨earlier,inside,makes⟩
      · exact .inl here
      · exact .inr ⟨_,List.mem_cons_self,makes⟩
      · exact .inr ⟨earlier,List.mem_cons_of_mem _ inside,makes⟩

theorem fed_congr (same : ∀ tx ∈ txs, ∀ o ∈ tx.spends, o ∈ held ↔ o ∈ other) : Fed c held txs ↔ Fed c other txs := by
  unfold Fed
  have here : ∀ before tx later, txs = before ++ tx :: later → ∀ o ∈ tx.spends, (o ∈ held ↔ o ∈ other) := by
    intro before tx later split
    exact same tx (by rw [split]; simp)
  constructor
  · intro fed before tx later split o member
    exact (fed before tx later split o member).imp_left (here before tx later split o member).mp
  · intro fed before tx later split o member
    exact (fed before tx later split o member).imp_left (here before tx later split o member).mpr

-- The payments of a block go through exactly when each finds its inputs and
-- the fees still fit a u64. The fees are the cached ones.
theorem payments_exact (identify : Set.InjOn (Transaction.txid c) known) (origin : Origin c known utxoSet)
    (backed : ∀ entry ∈ entries, Backed c known entry.transaction entry.feePaid)
    (inside : ∀ entry ∈ entries, entry.transaction ∈ known) (spending : ∀ entry ∈ entries, entry.transaction.inputs ≠ [])
    (apart : Separated entries) : (∃ after, (entries.map MempoolEntry.transaction).foldlM (applyPayment c height)
      (utxoSet,fees) = .ok (after,total)) ↔
      Fed c {o | o ∈ utxoSet} (entries.map MempoolEntry.transaction) ∧ total.toNat = fees.toNat + totalPaid entries := by
  induction entries generalizing utxoSet fees with
  | nil =>
    simp only [List.map_nil,List.foldlM_nil,pure,Except.pure,Except.ok.injEq,Prod.mk.injEq]
    have fed : Fed c {o | o ∈ utxoSet} [] := by
      intro before tx later split
      simp at split
    simp [fed,totalPaid,← UInt64.toNat_inj,eq_comm]
  | cons entry rest ih =>
    obtain ⟨away,apart⟩ := List.pairwise_cons.mp apart
    have first := backed entry List.mem_cons_self
    have known' := inside entry List.mem_cons_self
    have later : ∀ fees, (∃ after, (rest.map MempoolEntry.transaction).foldlM (applyPayment c height)
        (applyTransaction c entry.transaction utxoSet height,fees) = .ok (after,total)) ↔
        Fed c ({o | o ∈ utxoSet} ∪ {o | o ∈ outpoints c entry.transaction}) (rest.map MempoolEntry.transaction) ∧
          total.toNat = fees.toNat + totalPaid rest := by
      intro fees
      rw [ih (origin.apply known') (fun e member => backed e (List.mem_cons_of_mem _ member))
        (fun e member => inside e (List.mem_cons_of_mem _ member))
        (fun e member => spending e (List.mem_cons_of_mem _ member)) apart]
      rw [fed_congr]
      intro tx member o spent
      obtain ⟨e,item,rfl⟩ := List.mem_map.mp member
      have kept : o ∉ entry.transaction.spends := fun again => away e item again spent
      simp only [Set.mem_ofPred_eq,Set.mem_union,mem_applyTransaction]
      tauto
    rw [List.map_cons,List.foldlM_cons,fed_cons]
    have sum : totalPaid (entry :: rest) = entry.feePaid.toNat + totalPaid rest := rfl
    constructor
    · intro runs
      obtain ⟨after,ran⟩ := runs
      obtain ⟨⟨mid,collected⟩,step,ran⟩ := Fallible.bind_ok.mp ran
      obtain ⟨_,⟨fee,paid,exact⟩,rfl⟩ := applyPayment_exact.mp step
      obtain ⟨rfl,present⟩ := (paid_exact identify origin first).mp paid
      obtain ⟨fed,total⟩ := (later collected).mp ⟨after,ran⟩
      exact ⟨⟨present,fed⟩,by omega⟩
    · intro both
      obtain ⟨⟨present,fed⟩,exact⟩ := both
      have bound := total.toNat_lt
      obtain ⟨collected,fits⟩ : ∃ collected : UInt64, collected.toNat = fees.toNat + entry.feePaid.toNat :=
        toNat_reaches (by omega)
      obtain ⟨after,ran⟩ := (later collected).mpr ⟨fed,by omega⟩
      have paid := (paid_exact identify origin first).mpr ⟨rfl,present⟩
      have step : applyPayment c height (utxoSet,fees) entry.transaction =
          .ok (applyTransaction c entry.transaction utxoSet height,collected) :=
        applyPayment_exact.mpr ⟨spending entry List.mem_cons_self,⟨_,paid,fits⟩,rfl⟩
      exact ⟨after,Fallible.bind_ok.mpr ⟨_,step,ran⟩⟩

theorem selection_entries (sound : Sound c pool) (order : pool.Yields values) (now maxSize : UInt64) :
    ∃ chosen : List MempoolEntry,
      (pool.getTransactionsForBlock c values now maxSize).1 = chosen.map MempoolEntry.transaction ∧
      (pool.getTransactionsForBlock c values now maxSize).2.toNat = min (totalPaid chosen) (2^64 - 1) ∧
      (∀ entry ∈ chosen, Holds pool (entry.transaction.txid c) entry) ∧ Separated chosen := by
  have perm := List.perm_insertionSort (fun left right => (Mempool.blockOrder c left right).isLE) values
  obtain ⟨chosen,picks,same,sum⟩ := selection_picks c pool values now maxSize
  have sub := picks.sublist
  have kept : ∀ entry ∈ chosen, Holds pool (entry.transaction.txid c) entry := by
    intro entry member
    obtain ⟨k,stored⟩ := (yields_exact order).mp (perm.mem_iff.mp (sub.subset member))
    rw [sound.keyed k entry stored]
    exact stored
  refine ⟨chosen,same,sum,kept,?_⟩
  have distinct : (chosen.map fun entry => entry.transaction.txid c).Nodup :=
    ((perm.map _).nodup_iff.mpr (yields_distinct sound.keyed order)).sublist (sub.map _)
  refine (List.pairwise_map.mp distinct).imp_of_mem ?_
  intro one two first second differ
  exact sound.apart _ one _ two (kept one first) (kept two second) differ

-- The fees that the pool remembers for these transactions.
def cachedFees (c : Crates) (pool : Mempool) (txs : List Transaction) : Nat :=
  (txs.map fun tx => ((pool.transactions.lookup (tx.txid c)).map fun entry => entry.feePaid.toNat).getD 0).sum

theorem cachedFees_chosen (kept : ∀ entry ∈ entries, Holds pool (entry.transaction.txid c) entry) :
    cachedFees c pool (entries.map MempoolEntry.transaction) = totalPaid entries := by
  unfold cachedFees totalPaid
  rw [List.map_map]
  apply congrArg List.sum
  apply List.map_congr_left
  intro entry member
  have stored : pool.transactions.lookup (entry.transaction.txid c) = some entry := kept entry member
  simp [stored]

theorem coinbase_valid {height reward : UInt64} {miner : List UInt8} (positive : reward ≠ 0) :
    (createCoinbaseTransaction height reward miner).validate = .ok () := by
  apply (Transaction.validate_exact _).mpr
  refine ⟨List.cons_ne_nil _ _,List.nodup_nil,?_⟩
  intro output member
  obtain rfl := List.mem_singleton.mp member
  exact positive

theorem coinbase_total (height reward : UInt64) (miner : List UInt8) :
    (createCoinbaseTransaction height reward miner).totalOutputValue = reward := by
  simp [createCoinbaseTransaction,Transaction.new,Transaction.totalOutputValue]

-- The block that `create_block_template` puts together, applied to the ledger.
theorem assembled_applies {header : BlockHeader} {miner : List UInt8} {reward : UInt64}
    (identify : Set.InjOn (Transaction.txid c) known) (origin : Origin c known utxoSet)
    (backed : ∀ entry ∈ entries, Backed c known entry.transaction entry.feePaid)
    (inside : ∀ entry ∈ entries, entry.transaction ∈ known) (spending : ∀ entry ∈ entries, entry.transaction.inputs ≠ [])
    (apart : Separated entries) (coinbase : createCoinbaseTransaction header.height reward miner ∈ known)
    (positive : reward ≠ 0) (exact : reward.toNat = min (subsidy header.height + totalPaid entries) (2^64 - 1)) :
    (∃ after, applyBlockToUtxoSet c ⟨header,createCoinbaseTransaction header.height reward miner ::
      entries.map MempoolEntry.transaction⟩ utxoSet = .ok after) ↔
      Fed c {o | o ∈ utxoSet} (createCoinbaseTransaction header.height reward miner ::
        entries.map MempoolEntry.transaction) ∧ subsidy header.height + totalPaid entries < 2^64 := by
  have first : applyCoinbase c header.height (createCoinbaseTransaction header.height reward miner) utxoSet = .ok
      (applyTransaction c (createCoinbaseTransaction header.height reward miner) utxoSet header.height) :=
    applyCoinbase_exact.mpr ⟨rfl,fun _ => coinbase_valid positive,rfl⟩
  have rest : ∀ total, (∃ after, (entries.map MempoolEntry.transaction).foldlM (applyPayment c header.height)
      (applyTransaction c (createCoinbaseTransaction header.height reward miner) utxoSet header.height,0) =
        .ok (after,total)) ↔ Fed c {o | o ∈ utxoSet} (createCoinbaseTransaction header.height reward miner ::
          entries.map MempoolEntry.transaction) ∧ total.toNat = totalPaid entries := by
    intro total
    rw [payments_exact identify (origin.apply coinbase) backed inside spending apart,fed_cons]
    have free : ∀ o ∈ (createCoinbaseTransaction header.height reward miner).spends, o ∈ {o | o ∈ utxoSet} :=
      fun _ member => absurd member List.not_mem_nil
    have same : {o | o ∈ applyTransaction c (createCoinbaseTransaction header.height reward miner) utxoSet header.height} =
        {o | o ∈ utxoSet} ∪ {o | o ∈ outpoints c (createCoinbaseTransaction header.height reward miner)} := by
      ext o
      simp only [Set.mem_ofPred_eq,Set.mem_union,mem_applyTransaction]
      exact or_congr_left (and_iff_left List.not_mem_nil)
    rw [same,and_iff_right free,UInt64.toNat_zero,Nat.zero_add]
  rw [← coinbase_total header.height reward miner] at exact
  constructor
  · intro applies
    obtain ⟨after,applied⟩ := applies
    obtain ⟨_,_,_,fees,split,first',ran,reward'⟩ := applyBlock_exact.mp applied
    cases split
    cases Except.ok.inj (first.symm.trans first')
    obtain ⟨fed,total⟩ := (rest fees).mp ⟨after,ran⟩
    have covered := (validateBlockReward_exact.mp reward').1
    exact ⟨fed,by rw [← total]; exact covered⟩
  · intro both
    obtain ⟨fed,fits⟩ := both
    have total : (UInt64.ofNat (totalPaid entries)).toNat = totalPaid entries :=
      UInt64.toNat_ofNat_of_lt' (by rw [UInt64.size]; omega)
    obtain ⟨after,ran⟩ := (rest _).mpr ⟨fed,total⟩
    have covered : validateBlockReward header.height (createCoinbaseTransaction header.height reward miner)
        (UInt64.ofNat (totalPaid entries)) = .ok () := by
      apply validateBlockReward_exact.mpr
      rw [total]
      exact ⟨fits,by omega⟩
    exact ⟨after,applyBlock_exact.mpr ⟨_,_,_,_,rfl,first,ran,covered⟩⟩

-- A block on the tip is accepted, and is the new tip, exactly when it applies.
theorem tip_extension (valid : Valid c s) (onTip : s.bestChain.getLast? = some block.header.previousBlockHash)
    (admitted : Admitted c s block) :
    (∃ next, s.addBlock c block = some (next,.ok ()) ∧ next.bestChain.getLast? = some (block.hash c)) ↔
      ∃ after, applyBlockToUtxoSet c block s.utxoSet = .ok after := by
  obtain ⟨tip,_,best,_,_⟩ := valid.tip
  obtain rfl := Option.some.inj (best.last.symm.trans onTip)
  have whole := store_branch valid admitted best
  have replayed := store_replay (c := c) admitted.fresh (branch_stored best) valid.replay
  constructor
  · intro ended
    obtain ⟨next,ran,_⟩ := ended
    cases addBlock_sound ran with
    | adopted _ branch built | kept _ branch built =>
      cases whole.unique branch
      exact ⟨_,replayed.symm.trans built⟩
  · intro applies
    obtain ⟨after,applied⟩ := applies
    have longer : (s.bestChain ++ [block.hash c]).length > s.bestChain.length := by simp
    exact ⟨_,addBlock_complete (.adopted admitted whole (replayed.trans applied) longer),whole.last⟩

theorem submitBlock_tip {node : Node} :
    (∃ next, node.submitBlock c block = some (next,.ok ()) ∧
      next.blockchain.bestChain.getLast? = some (block.hash c)) ↔
    ∃ chain, node.blockchain.addBlock c block = some (chain,.ok ()) ∧ chain.bestChain.getLast? = some (block.hash c) := by
  unfold Node.submitBlock
  constructor
  · intro ended
    obtain ⟨next,ran,tip⟩ := ended
    obtain ⟨⟨chain,reply⟩,added,equal⟩ := Option.map_eq_some_iff.mp ran
    cases reply with
    | error text => cases equal
    | ok =>
      dsimp only at equal
      split at equal
      · rename_i last; exact ⟨chain,added,last⟩
      · cases equal; exact ⟨chain,added,tip⟩
  · intro added
    obtain ⟨chain,added,tip⟩ := added
    refine ⟨⟨chain,node.mempool.removeConfirmedTransactions c
      (((chain.getBlock (block.hash c)).map Block.transactions).getD [])⟩,?_,tip⟩
    rw [added]
    simp only [Option.map_some,if_pos tip]

theorem max_later (now before : UInt64) : before ≤ max now before := by
  change before ≤ if now ≤ before then before else now
  split
  · exact UInt64.le_refl _
  · rename_i after; exact UInt64.le_of_lt (UInt64.not_le.mp after)

theorem createBlockTemplate_parts {node : Node} {nextWorkBits : Blockchain → Nat → UInt32} {miner : List UInt8}
    (made : node.createBlockTemplate c nextWorkBits values now miner = .ok template) :
    ∃ tip best reward bits, node.blockchain.bestChain.getLast? = some tip ∧ node.blockchain.getBlock tip = some best ∧
      reward = saturate (subsidy (node.blockchain.currentHeight + 1) +
        (node.mempool.getTransactionsForBlock c values now 1000000).2.toNat) ∧
      template.block.transactions = createCoinbaseTransaction (node.blockchain.currentHeight + 1) reward miner ::
        (node.mempool.getTransactionsForBlock c values now 1000000).1 ∧
      template.header = ⟨tip,Block.calculateMerkleRoot c template.block.transactions,max now best.header.timestamp,bits,0,
        node.blockchain.currentHeight + 1⟩ := by
  unfold Node.createBlockTemplate at made
  split at made
  · cases made
  · rename_i tip last
    split at made
    · cases made
    · rename_i best stored
      cases made
      exact ⟨tip,best,_,_,last,stored,rfl,rfl,rfl⟩

-- The mined block passes every check before the writes.
theorem mined_admitted {node : Node} {miner : List UInt8} {nextWorkBits : Blockchain → Nat → UInt32}
    (valid : Valid c node.blockchain)
    (made : node.createBlockTemplate c nextWorkBits values now miner = .ok template)
    (work : (template.mined nonce).hashValue c ≤ BlindHash.targetFromBits template.header.bits)
    (fresh : (template.mined nonce).hash c ∉ node.blockchain.blocks) :
    Admitted c node.blockchain (template.mined nonce) := by
  obtain ⟨tip,best,reward,bits,last,stored,_,transactions,header⟩ := createBlockTemplate_parts made
  have names : (template.mined nonce).header.previousBlockHash = tip := by rw [BlockTemplate.mined,header]
  refine ⟨fresh,fun _ => mem_blocks.mpr ⟨best,by rw [names]; exact stored⟩,?_⟩
  rw [names,stored]
  apply (Block.validate_exact _ _ _).mpr
  refine ⟨(Block.validateParent_some _ _ _).mpr ⟨?_,?_,?_⟩,?_,?_,work⟩
  · obtain ⟨tip',best',branch,stored',height⟩ := valid.tip
    obtain rfl := Option.some.inj (branch.last.symm.trans last)
    obtain rfl := Option.some.inj (stored'.symm.trans stored)
    rw [BlockTemplate.mined,header,height]
  · rw [names,valid.keyed tip best stored]
  · rw [BlockTemplate.mined,header]
    exact max_later _ _
  · rw [BlockTemplate.mined,transactions]
    exact List.cons_ne_nil _ _
  · rw [BlockTemplate.mined,header]

-- On a node with a valid chain, a sound pool and fees of known transactions.
theorem acceptance_exact {node : Node} {miner : List UInt8} {nextWorkBits : Blockchain → Nat → UInt32}
    (valid : Valid c node.blockchain) (sound : Sound c node.mempool)
    (sourced : Sourced c (stored node.blockchain) ⟨node,[]⟩) (order : node.mempool.Yields values)
    (made : node.createBlockTemplate c nextWorkBits values now miner = .ok template)
    (identify : Set.InjOn (Transaction.txid c) (stored node.blockchain ∪ {tx | tx ∈ template.block.transactions}))
    (positive : template.block.transactions.head?.map Transaction.totalOutputValue ≠ some 0)
    (work : (template.mined nonce).hashValue c ≤ BlindHash.targetFromBits template.header.bits) :
    (∃ next, node.submitBlock c (template.mined nonce) = some (next,.ok ()) ∧
      next.blockchain.bestChain.getLast? = some ((template.mined nonce).hash c)) ↔
    (template.mined nonce).hash c ∉ node.blockchain.blocks ∧
      Fed c {o | o ∈ node.blockchain.utxoSet} template.block.transactions ∧
      subsidy template.header.height + cachedFees c node.mempool template.block.transactions.tail < 2^64 := by
  obtain ⟨tip,best,reward,bits,last,_,amount,transactions,header⟩ := createBlockTemplate_parts made
  obtain ⟨chosen,selected,sum,kept,apart⟩ := selection_entries sound order now 1000000
  have height : template.header.height = node.blockchain.currentHeight + 1 := by rw [header]
  rw [← height] at transactions amount
  rw [selected] at transactions
  have nonzero : reward ≠ 0 := by
    intro zero
    rw [transactions] at positive
    exact positive (by simp [coinbase_total,zero])
  have total : reward.toNat = min (subsidy template.header.height + totalPaid chosen) (2^64 - 1) := by
    rw [amount,saturate_toNat,sum]
    omega
  have inside : ∀ tx ∈ createCoinbaseTransaction template.header.height reward miner ::
      chosen.map MempoolEntry.transaction, tx ∈ stored node.blockchain ∪ {tx | tx ∈ template.block.transactions} := by
    intro tx member
    rw [← transactions] at member
    exact .inr member
  have wider : stored node.blockchain ⊆ stored node.blockchain ∪ {tx | tx ∈ template.block.transactions} :=
    Set.subset_union_left
  have backed := (sourced.mono wider).held
  have applies : (∃ after, applyBlockToUtxoSet c ⟨{ template.header with nonce },createCoinbaseTransaction
      template.header.height reward miner :: chosen.map MempoolEntry.transaction⟩ node.blockchain.utxoSet =
        .ok after) ↔ _ := assembled_applies identify ((best_origin valid).mono wider)
    (fun entry member => backed _ entry (kept entry member))
    (fun entry member => inside _ (List.mem_cons_of_mem _ (List.mem_map_of_mem member)))
    (fun entry member => sound.spending _ entry (kept entry member)) apart (inside _ List.mem_cons_self) nonzero total
  have fees : cachedFees c node.mempool template.block.transactions.tail = totalPaid chosen := by
    rw [transactions,List.tail_cons]
    exact cachedFees_chosen kept
  have shape : template.mined nonce = ⟨{ template.header with nonce },createCoinbaseTransaction template.header.height
      reward miner :: chosen.map MempoolEntry.transaction⟩ := by rw [← transactions]; rfl
  rw [← shape,← transactions,← fees] at applies
  have onTip : node.blockchain.bestChain.getLast? = some (template.mined nonce).header.previousBlockHash := by
    rw [last,BlockTemplate.mined,header]
  rw [submitBlock_tip]
  constructor
  · intro ended
    obtain ⟨chain,ran,extended⟩ := ended
    have admitted := accepted_admitted (addBlock_sound ran)
    exact ⟨admitted.fresh,applies.mp ((tip_extension valid onTip admitted).mp ⟨chain,ran,extended⟩)⟩
  · intro both
    obtain ⟨fresh,ready⟩ := both
    exact (tip_extension valid onTip (mined_admitted valid made work fresh)).mpr (applies.mpr ready)

theorem template_accepted_exact {node : Node} {miner : List UInt8} {nextWorkBits : Blockchain → Nat → UInt32}
    (path : Operated c operations node) (order : node.mempool.Yields values)
    (made : node.createBlockTemplate c nextWorkBits values now miner = .ok template)
    (identify : Set.InjOn (Transaction.txid c) (stored node.blockchain ∪ {tx | tx ∈ template.block.transactions}))
    (positive : template.block.transactions.head?.map Transaction.totalOutputValue ≠ some 0)
    (work : (template.mined nonce).hashValue c ≤ BlindHash.targetFromBits template.header.bits) :
    (∃ next, node.submitBlock c (template.mined nonce) = some (next,.ok ()) ∧
      next.blockchain.bestChain.getLast? = some ((template.mined nonce).hash c)) ↔
    (template.mined nonce).hash c ∉ node.blockchain.blocks ∧
      Fed c {o | o ∈ node.blockchain.utxoSet} template.block.transactions ∧
      subsidy template.header.height + cachedFees c node.mempool template.block.transactions.tail < 2^64 := by
  obtain ⟨turns,served⟩ := operated_served path
  have kept := served_kept (served.weaken fun _ _ _ => trivial)
  exact acceptance_exact (reached_valid (served_chain served)) kept.sound (served_sourced served) order made identify
    positive work

-- The whole pool of the two runs below.
def pendingEntries : List MempoolEntry := [entryOf pendingPayment 10000 0]
def pendingCalls : List NodeCall := [.submitBlock earnBlock,.submitTransaction pendingPayment 0]
def easyBits : Blockchain → Nat → UInt32 := fun _ _ => Protocol.defaultBits

theorem template_accepted_exact_pending : ∃ (node : Node) (template : BlockTemplate),
    template.block.transactions.length = 2 ∧ Fed reference {o | o ∈ node.blockchain.utxoSet} template.block.transactions := by
  have fed : (Runs.feed (Node.call reference) (.inMemory reference) pendingCalls).map (fun pair =>
      (decide (pair.1.mempool.Yields pendingEntries ∧ ∀ entry ∈ pair.1.blockchain.blocks.entries,
        ∀ tx ∈ entry.2.transactions, tx ∈ [Blockchain.genesisTx,earnedCoinbase]),
        (pair.1.createBlockTemplate reference easyBits pendingEntries 0 [7]).map fun template =>
          (decide (template.block.transactions = [createCoinbaseTransaction 2 10000010000 [7],pendingPayment]),
            decide ((template.mined 0).hashValue reference ≤ BlindHash.targetFromBits template.header.bits),
            (pair.1.submitBlock reference (template.mined 0)).map fun pair =>
              decide (pair.2 = .ok () ∧
                pair.1.blockchain.bestChain.getLast? = some ((template.mined 0).hash reference))))) =
      some (true,.ok (true,true,some true)) := by decide +kernel
  obtain ⟨⟨node,answers⟩,ran,equal⟩ := Option.map_eq_some_iff.mp fed
  simp only [Prod.mk.injEq,decide_eq_true_eq] at equal
  obtain ⟨⟨order,known⟩,made⟩ := equal
  cases assembled : node.createBlockTemplate reference easyBits pendingEntries 0 [7] with
  | error text =>
    rw [assembled] at made
    cases made
  | ok template =>
    rw [assembled] at made
    simp only [Except.map,Except.ok.injEq,Prod.mk.injEq,decide_eq_true_eq] at made
    obtain ⟨transactions,work,submitted⟩ := made
    obtain ⟨⟨next,answer⟩,submitted,equal⟩ := Option.map_eq_some_iff.mp submitted
    obtain ⟨rfl,tip⟩ := of_decide_eq_true equal
    have distinct : ∀ x ∈ [Blockchain.genesisTx,earnedCoinbase,createCoinbaseTransaction 2 10000010000 [7],pendingPayment],
        ∀ y ∈ [Blockchain.genesisTx,earnedCoinbase,createCoinbaseTransaction 2 10000010000 [7],pendingPayment],
          x.txid reference = y.txid reference → x = y := by decide +kernel
    have listed : ∀ tx ∈ stored node.blockchain ∪ {tx | tx ∈ template.block.transactions}, tx ∈
        [Blockchain.genesisTx,earnedCoinbase,createCoinbaseTransaction 2 10000010000 [7],pendingPayment] := by
      intro tx member
      rcases member with ⟨k,b,found,inside⟩ | new
      · exact List.mem_append_left _ (known ⟨k,b⟩ (Finmap.lookup_eq_some_iff.mp found) tx inside)
      · have new : tx ∈ template.block.transactions := new
        rw [transactions] at new
        exact List.mem_append_right [Blockchain.genesisTx,earnedCoinbase] new
    refine ⟨node,template,by rw [transactions]; rfl,?_⟩
    refine ((template_accepted_exact (Runs.feed_run ran).1 order assembled ?_ ?_ work).mp ⟨next,submitted,tip⟩).2.1
    · exact fun x first y second => distinct x (listed x first) y (listed y second)
    · rw [transactions]
      decide

-- What `next_work_bits` computes for the displaced chain and one transaction.
def retargetedBits : Blockchain → Nat → UInt32 := fun _ _ => 0x107c4597
def strandedCalls : List NodeCall :=
  pendingCalls ++ [.submitBlock rivalBlock,.submitBlock heirBlock]

-- The coin of the pending payment is gone, and the miner's block with it.
theorem stranded_template_rejected : ∃ operations node template, Operated reference operations node ∧
    node.mempool.Yields pendingEntries ∧
    node.createBlockTemplate reference retargetedBits pendingEntries 0 [7] = .ok template ∧
    template.block.transactions.head?.map Transaction.totalOutputValue = some 10000010000 ∧
    (template.mined 2).hashValue reference ≤ BlindHash.targetFromBits template.header.bits ∧
    ∃ next, node.submitBlock reference (template.mined 2) = some (next,.error "Input UTXO not found or already spent") := by
  have fed : (Runs.feed (Node.call reference) (.inMemory reference) strandedCalls).map (fun pair =>
      (decide (pair.1.mempool.Yields pendingEntries),
        (pair.1.createBlockTemplate reference retargetedBits pendingEntries 0 [7]).map fun template =>
          (template.block.transactions.head?.map Transaction.totalOutputValue,
            decide ((template.mined 2).hashValue reference ≤ BlindHash.targetFromBits template.header.bits),
            (pair.1.submitBlock reference (template.mined 2)).map fun pair =>
              decide (pair.2 = .error "Input UTXO not found or already spent")))) =
      some (true,.ok (some 10000010000,true,some true)) := by
    decide +kernel
  obtain ⟨⟨node,answers⟩,ran,equal⟩ := Option.map_eq_some_iff.mp fed
  simp only [Prod.mk.injEq,decide_eq_true_eq] at equal
  obtain ⟨order,made⟩ := equal
  cases assembled : node.createBlockTemplate reference retargetedBits pendingEntries 0 [7] with
  | error text =>
    rw [assembled] at made
    cases made
  | ok template =>
    rw [assembled] at made
    simp only [Except.map,Except.ok.injEq,Prod.mk.injEq,decide_eq_true_eq] at made
    obtain ⟨reward,work,submitted⟩ := made
    obtain ⟨⟨next,answer⟩,submitted,equal⟩ := Option.map_eq_some_iff.mp submitted
    obtain rfl := of_decide_eq_true equal
    exact ⟨_,node,template,(Runs.feed_run ran).1,order,assembled,reward,work,next,submitted⟩

end BlindEye.TemplateAcceptance
