import BlindEye.PoolSources
import BlindEye.DeliveryOrder

namespace BlindEye.SpendablePool
open AddBlock ChainState MempoolRules SharedTurns CoinOrigin CoinHistory SpendHistory PoolInvariants PoolSources LedgerRules

variable {c : Crates} {x next : SharedNode} {t : Turn} {calls : List (Turn × Answer)} {known : Set Transaction}
  {tx : Transaction} {entry : MempoolEntry} {s after : Blockchain} {block : Block}

def Spendable (c : Crates) (s : Blockchain) (entry : MempoolEntry) : Prop :=
  s.validateTransaction c entry.transaction = .ok () ∧
  s.calculateTransactionFee c entry.transaction = .ok entry.feePaid

def Live (c : Crates) (x : SharedNode) : Prop :=
  ∀ k entry, Holds x.node.mempool k entry → Spendable c x.node.blockchain entry

def Unspent (s : Blockchain) (entry : MempoolEntry) : Prop := ∀ o ∈ entry.transaction.spends, o ∈ s.utxoSet

-- A transaction that enters still finds its inputs, and a chain that displaces
-- a part of the best one holds the inputs of every entry that the block leaves.
def Undisturbed (c : Crates) (x : SharedNode) : Turn → Prop
  | .enter tx feePaid _ => Enters c x.node.mempool tx feePaid → ∀ o ∈ tx.spends, o ∈ x.node.blockchain.utxoSet
  | .submitBlock block => ∀ chain ledger, Adopts c x.node.blockchain block chain →
      (x.node.blockchain.store c block).buildUtxoStateForChain c chain = .ok ledger →
      chain = x.node.blockchain.bestChain ++ [block.hash c] ∨
      ∀ k entry, Holds x.node.mempool k entry → Untouched c block.transactions k entry →
        ∀ o ∈ entry.transaction.spends, o ∈ ledger
  | _ => True

-- An entry is good on the current ledger exactly when its inputs are there.
theorem spendable_exact (identify : Set.InjOn (Transaction.txid c) known) (origin : Origin c known s.utxoSet)
    (backed : Backed c known entry.transaction entry.feePaid) (spending : entry.transaction.inputs ≠ []) :
    Spendable c s entry ↔ Unspent s entry := by
  have exact : validateTransactionAgainstUtxoSet c entry.transaction s.utxoSet = .ok entry.feePaid ↔ _ :=
    paid_exact identify origin backed
  constructor
  · intro answered
    obtain ⟨_,paid⟩ := answered
    exact (exact.mp paid).2
  · intro unspent
    have paid := exact.mpr ⟨rfl,unspent⟩
    refine ⟨?_,paid⟩
    unfold Blockchain.validateTransaction
    rw [if_neg (by simpa using spending),paid]
    rfl

theorem live_exact (identify : Identified c calls)
    (path : Served c (fun _ t => Submits t) calls x) :
    Live c x ↔ ∀ k entry, Holds x.node.mempool k entry → Unspent x.node.blockchain entry := by
  have known := served_delivered path
  have sourced := (served_sourced path).mono known
  have origin := (best_origin (reached_valid (served_chain path))).mono known
  have kept := served_kept (path.weaken fun _ _ _ => trivial)
  have each : ∀ k entry, Holds x.node.mempool k entry →
      (Spendable c x.node.blockchain entry ↔ Unspent x.node.blockchain entry) := fun k entry held =>
    spendable_exact identify origin (sourced.held k entry held) (kept.sound.spending k entry held)
  constructor
  · exact fun live k entry held => (each k entry held).mp (live k entry held)
  · exact fun unspent k entry held => (each k entry held).mpr (unspent k entry held)

theorem tip_adopted (valid : Valid c s) (step : Step c s block after (.ok ()))
    (tip : after.bestChain.getLast? = some (block.hash c)) : ∃ chain ledger, Adopts c s block chain ∧
      (s.store c block).buildUtxoStateForChain c chain = .ok ledger ∧
      after = adopt (s.store c block) block chain ledger := by
  rcases step_outcome step with ⟨chain,ledger,adopts,built,equal,_⟩ | ⟨_,same,_⟩
  · exact ⟨chain,ledger,adopts,built,equal⟩
  · obtain ⟨last,b,branch,stored,_⟩ := valid.tip
    rw [same,branch.last] at tip
    cases tip
    exact absurd (mem_blocks.mpr ⟨b,stored⟩) (accepted_admitted step).fresh

-- A block on the tip spends nothing but what its own transactions spend.
theorem extension_keeps (valid : Valid c s) (admitted : Admitted c s block)
    (built : (s.store c block).buildUtxoStateForChain c (s.bestChain ++ [block.hash c]) = .ok ledger)
    (present : o ∈ s.utxoSet) (unspent : o ∉ block.transactions.flatMap Transaction.spends) : o ∈ ledger := by
  obtain ⟨_,_,branch,_,_⟩ := valid.tip
  have applied := (store_replay admitted.fresh (branch_stored branch) valid.replay).symm.trans built
  have history := reached_posted valid
  have whole := history_fold (block_posted history applied)
  rw [List.foldl_append,← history_fold history] at whole
  rw [whole]
  apply fold_keeps _ present
  simpa [entriesOf,CoinHistory.spends,List.flatMap_map] using unspent

theorem tip_unspent_exact (valid : Valid c x.node.blockchain)
    (unspent : ∀ k entry, Holds x.node.mempool k entry → Unspent x.node.blockchain entry)
    (step : Step c x.node.blockchain block after (.ok ())) (tip : after.bestChain.getLast? = some (block.hash c)) :
    (∀ k entry, Holds (x.node.mempool.removeConfirmedTransactions c block.transactions) k entry → Unspent after entry) ↔
      Undisturbed c x (.submitBlock block) := by
  obtain ⟨path,ledger,adopts,built,rfl⟩ := tip_adopted valid step tip
  constructor
  · intro safe path' ledger' adopts' built'
    cases (path_branch.mp adopts.path).unique (path_branch.mp adopts'.path)
    cases Except.ok.inj (built.symm.trans built')
    exact .inr fun k entry held untouched => safe k entry (holds_removeConfirmed.mpr ⟨held,untouched⟩)
  · intro calm k entry held o inside
    obtain ⟨held,untouched⟩ := holds_removeConfirmed.mp held
    rcases calm path ledger adopts built with rfl | safe
    · exact extension_keeps valid adopts.admitted built (unspent k entry held o inside) (untouched.unspent o inside)
    · exact safe k entry held untouched o inside

theorem turned_unspent (valid : Valid c x.node.blockchain) (submits : Submits t)
    (unspent : ∀ k entry, Holds x.node.mempool k entry → Unspent x.node.blockchain entry)
    (turned : Turned c x t next answer) :
    (∀ k entry, Holds next.node.mempool k entry → Unspent next.node.blockchain entry) ↔ Undisturbed c x t := by
  have still : ∀ {block chain answer}, Step c x.node.blockchain block chain answer →
      (∀ path, ¬ Adopts c x.node.blockchain block path) → chain.utxoSet = x.node.blockchain.utxoSet →
      ((∀ k entry, Holds x.node.mempool k entry → Unspent chain entry) ↔ Undisturbed c x (.submitBlock block)) := by
    intro block chain answer _ kept same
    unfold Unspent
    rw [same]
    exact ⟨fun _ path _ adopts => absurd adopts (kept path),fun _ => unspent⟩
  cases turned with
  | quoteRefused | quoted => exact ⟨fun _ => trivial,fun _ => unspent⟩
  | enterRefused _ refused =>
    refine ⟨fun _ enters => ?_,fun _ => unspent⟩
    rw [enterMempool_exact.mpr ⟨enters,rfl⟩] at refused
    cases refused
  | @entered tx feePaid now _ enters =>
    constructor
    · intro after _
      exact after _ _ withEntry_self
    · intro calm k entry held
      rcases withEntry_held held with ⟨_,rfl⟩ | ⟨_,old⟩
      · exact calm enters
      · exact unspent k entry old
  | blockRefused step =>
    rcases step_outcome step with ⟨_,_,_,_,_,answered⟩ | ⟨kept,_,same⟩
    · cases answered
    · exact still step kept same
  | blockKept step off =>
    rcases step_outcome step with ⟨path,_,adopts,_,rfl,_⟩ | ⟨kept,_,same⟩
    · exact absurd (path_branch.mp adopts.path).last off
    · exact still step kept same
  | blockTip step tip => exact tip_unspent_exact valid unspent step tip
  | resetBlockchain | resetMempool => exact submits.elim

theorem pool_live_exact (identify : Identified c calls) (path : Served c (fun _ t => Submits t) calls x) :
    (∀ earlier later mid, calls = earlier ++ later → Served c (fun _ t => Submits t) earlier mid → Live c mid) ↔
      Served c (fun x t => Submits t ∧ Undisturbed c x t) calls x := by
  refine Runs.run_exact_within ?_ ?_ ?_ identify path
  · exact fun distinct => Set.InjOn.mono (delivered_later _ _) distinct
  · exact fun k entry held => absurd held (new_empty k entry)
  · intro calls x t next answer run live submits distinct ran
    have before : Identified c calls := distinct.mono (delivered_later calls [(t,answer)])
    rw [live_exact distinct (.step run submits ran)]
    exact turned_unspent (reached_valid (served_chain run)) submits ((live_exact before run).mp live) (turn_sound ran)

-- The payment waits in the pool while two blocks displace the block that
-- holds the coin it spends.
def strandedTurns : List Turn :=
  pendingTurns ++ [.submitBlock rivalBlock,.submitBlock heirBlock]

def lostInput : String := "Input UTXO not found or already spent"

theorem stranded_served : ∃ calls x, Served reference (fun _ t => Submits t) calls x ∧ Identified reference calls ∧
    Holds x.node.mempool (pendingPayment.txid reference) (entryOf pendingPayment 10000 0) ∧
    x.node.blockchain.validateTransaction reference pendingPayment = .error lostInput := by
  have fed : (Runs.feed (SharedNode.turn reference) (.inMemory reference) strandedTurns).map (fun pair =>
      (pair.1.node.mempool.transactions.lookup (pendingPayment.txid reference),
        pair.1.node.blockchain.validateTransaction reference pendingPayment)) =
      some (some (entryOf pendingPayment 10000 0),.error lostInput) := by decide +kernel
  obtain ⟨⟨x,answers⟩,ran,equal⟩ := Option.map_eq_some_iff.mp fed
  obtain ⟨held,lost⟩ := Prod.mk.inj equal
  obtain ⟨path,lengths⟩ := Runs.feed_run ran
  refine ⟨_,x,path.only ?_,?_,held,lost⟩
  · have all : ∀ t ∈ strandedTurns, Submits t := by simp [strandedTurns,pendingTurns,Submits]
    intro call member
    exact all call.1 (List.of_mem_zip member).1
  · have distinct : ∀ x ∈ Blockchain.genesisTx :: strandedTurns.flatMap brings,
        ∀ y ∈ Blockchain.genesisTx :: strandedTurns.flatMap brings,
          x.txid reference = y.txid reference → x = y := by decide +kernel
    unfold Identified delivered
    rw [List.map_fst_zip (Nat.le_of_eq lengths)]
    exact fun x first y second => distinct x first y second

theorem pool_live_exact_stranded : ∃ calls x, Served reference (fun _ t => Submits t) calls x ∧
    ¬ Served reference (fun x t => Submits t ∧ Undisturbed reference x t) calls x := by
  obtain ⟨calls,x,path,identify,held,lost⟩ := stranded_served
  refine ⟨calls,x,path,fun calm => ?_⟩
  have live := (pool_live_exact identify path).mpr calm calls [] x (List.append_nil _).symm path
  have good := (live _ _ held).1
  rw [show (entryOf pendingPayment 10000 0).transaction = pendingPayment from rfl,lost] at good
  cases good

theorem reorganisation_strands : ∃ calls x, Served reference (fun _ t => Submits t) calls x ∧
    ∃ k entry, Holds x.node.mempool k entry ∧
      x.node.blockchain.validateTransaction reference entry.transaction = .error lostInput := by
  obtain ⟨calls,x,path,_,held,lost⟩ := stranded_served
  exact ⟨calls,x,path,_,_,held,lost⟩

end BlindEye.SpendablePool
