import BlindEye.CoinHistory

namespace BlindEye.SpendOnce
open ChainState CoinHistory SpendHistory

variable {c : Crates} {s : Blockchain}

def payments (transactions : List Transaction) : List Transaction := transactions.filter fun tx => !tx.inputs.isEmpty

-- Over all transactions of the best chain in order: no payment occurs twice
-- and no outpoint is consumed twice.
structure NoReplay (c : Crates) (s : Blockchain) : Prop where
  payments : ((payments (transactionsOn s s.bestChain)).map (Transaction.txid c)).Nodup
  outpoints : ((transactionsOn s s.bestChain).flatMap Transaction.spends).Nodup

theorem reached_noReplay (reached : Reached c (CoinbaseFresh c) s) (noCollision : CollisionFree c s) :
    NoReplay c s := by
  have distinct := reached_distinct reached noCollision
  have once := spent_once (reached_posted (reached_valid reached)) (separate_distinct distinct)
  constructor
  · have all : ((transactionsOn s s.bestChain).map (Transaction.txid c)).Nodup := by
      simpa [transactionsOn,Function.comp_def] using distinct
    exact all.sublist (List.filter_sublist.map _)
  · rw [transactionsOn,List.flatMap_map]
    exact once

theorem reached_noReplay_payBlock : ∃ s : Blockchain,
    (payments (transactionsOn s s.bestChain)).map (Transaction.txid reference) = [earnedPayment.txid reference] ∧
    (transactionsOn s s.bestChain).flatMap Transaction.spends = earnedPayment.spends ∧ NoReplay reference s := by
  have fed : (Runs.feed (fun s block => if CoinbaseFresh reference s block then s.addBlock reference block else none)
      genesisState [earnBlock,payBlock]).map (fun pair =>
        ((payments (transactionsOn pair.1 pair.1.bestChain)).map (Transaction.txid reference),
          (transactionsOn pair.1 pair.1.bestChain).flatMap Transaction.spends)) =
      some ([earnedPayment.txid reference],earnedPayment.spends) := by decide +kernel
  obtain ⟨⟨s,answers⟩,ran,equal⟩ := Option.map_eq_some_iff.mp fed
  obtain ⟨paid,spent⟩ := Prod.mk.inj equal
  obtain ⟨guarded,lengths⟩ := Runs.feed_run ran
  have path := guarded.guarded
  have noCollision : CollisionFree reference s := by
    apply collisionFree_run path
    rw [List.map_fst_zip (Nat.le_of_eq lengths)]
    decide +kernel
  exact ⟨s,paid,spent,reached_noReplay ⟨_,path⟩ noCollision⟩

-- The miner's second block repeats its first coinbase, and the payment out of
-- the first one is good for a second time.
def earnAgainBlock : Block := blockOn (payBlock.hash reference) 3
  [createCoinbaseTransaction 3 10000000000 generatorAddress]
def payAgainBlock : Block := blockOn (earnAgainBlock.hash reference) 4 [createCoinbaseTransaction 4 100 [4],earnedPayment]

theorem payment_replayed : ∃ s, Reachable reference s ∧ CollisionFree reference s ∧
    ¬ ((payments (transactionsOn s s.bestChain)).map (Transaction.txid reference)).Nodup ∧
    ¬ ((transactionsOn s s.bestChain).flatMap Transaction.spends).Nodup := by
  have fed : (Runs.feed (Blockchain.addBlock reference) genesisState
      [earnBlock,payBlock,earnAgainBlock,payAgainBlock]).map (fun pair =>
        (decide ((payments (transactionsOn pair.1 pair.1.bestChain)).map (Transaction.txid reference)).Nodup,
          decide ((transactionsOn pair.1 pair.1.bestChain).flatMap Transaction.spends).Nodup)) =
      some (false,false) := by decide +kernel
  obtain ⟨⟨s,answers⟩,ran,equal⟩ := Option.map_eq_some_iff.mp fed
  obtain ⟨path,lengths⟩ := Runs.feed_run ran
  obtain ⟨twice,spentTwice⟩ : ¬ ((payments (transactionsOn s s.bestChain)).map (Transaction.txid reference)).Nodup ∧
      ¬ ((transactionsOn s s.bestChain).flatMap Transaction.spends).Nodup := by simpa using equal
  refine ⟨s,⟨_,path⟩,?_,twice,spentTwice⟩
  apply collisionFree_run path
  rw [List.map_fst_zip (Nat.le_of_eq lengths)]
  decide +kernel

end BlindEye.SpendOnce
