import BlindEye.PoolSources
import BlindEye.Confirmation
import BlindEye.WalletReference

namespace BlindEye.WalletAdmission
open ChainState CoinHistory MempoolRules SharedTurns PoolInvariants PoolSources LedgerRules

variable {c : Crates} {w : WalletCrates c} {wallet : Wallet c w} {s : Blockchain} {pool : Mempool} {node : Node}
  {reserved : Finset OutPoint} {entries listing chosen selected : List (OutPoint × Utxo)} {tx : Transaction}
  {preview : TransactionPreview}

def selectedValue (selected : List (OutPoint × Utxo)) : Nat := (selected.map fun entry => coinValue entry.2).sum

theorem selectInputs_selects (picked : Wallet.selectInputs reserved target entries chosen total = .ok (selected,sum)) :
    ∃ more, selected = chosen ++ more ∧ (∀ entry ∈ more, entry ∈ entries ∧ entry.1 ∉ reserved) ∧
      sum.toNat = total.toNat + selectedValue more := by
  induction entries generalizing chosen total with
  | nil =>
    cases picked
    exact ⟨[],(List.append_nil _).symm,fun _ member => absurd member List.not_mem_nil,rfl⟩
  | cons entry rest ih =>
    unfold Wallet.selectInputs at picked
    split at picked
    · obtain ⟨more,equal,inside,exact⟩ := ih picked
      exact ⟨more,equal,fun e member => (inside e member).imp_left (List.mem_cons_of_mem _),exact⟩
    · rename_i free
      cases added : checkedAdd total entry.2.output.value with
      | none =>
        rw [added] at picked
        cases picked
      | some next =>
        have grown := checkedAdd_exact.mp added
        have value : ∀ more, selectedValue (entry :: more) = entry.2.output.value.toNat + selectedValue more := fun _ => rfl
        simp only [added] at picked
        split at picked
        · cases picked
          refine ⟨[entry],rfl,?_,by rw [grown,value]; rfl⟩
          intro e member
          obtain rfl := List.mem_singleton.mp member
          exact ⟨List.mem_cons_self,free⟩
        · obtain ⟨more,equal,inside,exact⟩ := ih picked
          refine ⟨entry :: more,by rw [equal,List.append_assoc]; rfl,?_,by rw [exact,grown,value]; omega⟩
          intro e member
          rcases List.mem_cons.mp member with rfl | later
          · exact ⟨List.mem_cons_self,free⟩
          · exact (inside e later).imp_left (List.mem_cons_of_mem _)

-- What a preview is made of.
structure Built (c : Crates) (s : Blockchain) (reserved : Finset OutPoint) (amount fee : UInt64)
    (preview : TransactionPreview) (selected : List (OutPoint × Utxo)) : Prop where
  spends : preview.transaction.spends = selected.map Prod.fst
  coins : ∀ entry ∈ selected, s.utxoSet.lookup entry.1 = some entry.2 ∧ entry.1 ∉ reserved
  outputs : outputTotal preview.transaction = amount.toNat + preview.change.toNat
  balance : amount.toNat + fee.toNat + preview.change.toNat = selectedValue selected
  total : selectedValue selected < 2^64
  valid : s.validateTransaction c preview.transaction = .ok ()

-- The change is an output only where there is some.
theorem change_outputs (inputs : List TxInput) (amount change : UInt64) (payee back : List UInt8) :
    outputTotal (Transaction.new inputs (⟨amount,payee⟩ :: if change > 0 then [⟨change,back⟩] else [])) =
      amount.toNat + change.toNat := by
  unfold outputTotal Transaction.new
  split
  · simp
  · rename_i none
    have zero : change = 0 := UInt64.le_zero_iff.mp (UInt64.not_lt.mp none)
    simp [zero]

theorem preview_built (lists : s.Lists listing)
    (built : wallet.buildTransactionPreview s listing reserved recipient amount fee = .ok preview) :
    ∃ selected, Built c s reserved amount fee preview selected := by
  unfold Wallet.buildTransactionPreview at built
  split at built
  · cases built
  · split at built
    · cases built
    · split at built
      · cases built
      · rename_i target added
        split at built
        · cases built
        · rename_i selected total picked
          split at built
          · cases built
          · rename_i enough
            dsimp only at built
            split at built
            · cases built
            · rename_i valid
              cases built
              obtain ⟨more,equal,inside,sum⟩ := selectInputs_selects picked
              obtain rfl : selected = more := equal
              have exact := checkedAdd_exact.mp added
              have enough := UInt64.le_iff_toNat_le.mp (UInt64.not_lt.mp enough)
              have change := UInt64.toNat_sub_of_le total _ (UInt64.le_iff_toNat_le.mpr enough)
              have bound := total.toNat_lt
              have sum : total.toNat = selectedValue selected := by simpa using sum
              refine ⟨selected,?_,?_,change_outputs _ _ _ _ _,by dsimp only; omega,by omega,valid⟩
              · simp [Transaction.new,Transaction.spends,Function.comp_def]
              · intro entry member
                obtain ⟨offered,free⟩ := inside entry member
                exact ⟨(FiniteMap.lists_exact lists).mp (List.mem_of_mem_filter ((List.mem_insertionSort _).mp offered)),free⟩

-- The fee that the node computes is the fee that the wallet was asked for.
theorem built_fee (built : Built c s reserved amount fee preview selected) :
    s.calculateTransactionFee c preview.transaction = .ok fee := by
  have passed := built.valid
  unfold Blockchain.validateTransaction at passed
  split at passed
  · cases passed
  · cases paid : validateTransactionAgainstUtxoSet c preview.transaction s.utxoSet with
    | error text =>
      rw [paid] at passed
      cases passed
    | ok answer =>
      obtain ⟨_,_,_,balance⟩ := validateTransaction_exact.mp paid
      have inputs : inputTotal s.utxoSet preview.transaction = selectedValue selected := by
        unfold inputTotal selectedValue
        rw [built.spends,List.map_map]
        apply congrArg List.sum
        apply List.map_congr_left
        intro entry member
        simp [FiniteMap.valueAt,(built.coins entry member).1]
      have exact := built.balance
      have bound := built.total
      have outputs : preview.transaction.totalOutputValue.toNat = amount.toNat + preview.change.toNat := by
        rw [totalOutputValue_wraps,built.outputs,Nat.mod_eq_of_lt (by omega)]
      have same : answer = fee := UInt64.toNat_inj.mp (by omega)
      rw [← same]
      exact paid

theorem built_inputs (built : Built c s reserved amount fee preview selected) : preview.transaction.inputs ≠ [] := by
  intro empty
  have passed := built.valid
  unfold Blockchain.validateTransaction at passed
  rw [if_pos (by simpa using empty)] at passed
  cases passed

theorem reserved_exact : o ∈ pool.reservedOutpoints ↔ ∃ k entry, Holds pool k entry ∧ o ∈ entry.transaction.spends := by
  unfold Mempool.reservedOutpoints
  rw [Multiset.mem_toFinset,Multiset.mem_bind]
  constructor
  · intro found
    obtain ⟨⟨k,entry⟩,inside,member⟩ := found
    exact ⟨k,entry,Finmap.lookup_eq_some_iff.mpr inside,member⟩
  · intro found
    obtain ⟨k,entry,held,member⟩ := found
    exact ⟨⟨k,entry⟩,Finmap.lookup_eq_some_iff.mp held,member⟩

-- The bytes of the preview's transaction and of the transactions in the pool.
def serializations (pool : Mempool) (tx : Transaction) : Set (List UInt8) :=
  {bytes | bytes = tx.serialize ∨ ∃ k entry, Holds pool k entry ∧ bytes = entry.transaction.serialize}

-- A transaction that spends nothing reserved enters the pool as far as the
-- pool's own checks go.
theorem built_enters (sound : Sound c pool) (built : Built c s pool.reservedOutpoints amount fee preview selected)
    (noCollision : Set.InjOn c.blake3 (serializations pool preview.transaction))
    (enough : pool.minimumRequiredFee preview.transaction ≤ fee) (room : pool.size < pool.maxSize) :
    Enters c pool preview.transaction fee := by
  have free : ∀ o ∈ preview.transaction.spends, o ∉ pool.reservedOutpoints := by
    intro o member
    rw [built.spends] at member
    obtain ⟨entry,inside,rfl⟩ := List.mem_map.mp member
    exact (built.coins entry inside).2
  refine ⟨?_,enough,?_,room⟩
  · intro known
    obtain ⟨entry,held⟩ := Finmap.mem_iff.mp known
    have keyed := sound.keyed _ entry held
    have bytes := noCollision (.inr ⟨_,entry,held,rfl⟩) (.inl rfl) keyed
    obtain ⟨i,others,first⟩ := List.exists_cons_of_ne_nil (sound.spending _ entry held)
    obtain ⟨j,others',second⟩ := List.exists_cons_of_ne_nil (built_inputs built)
    have same := serialize_outpoint first second bytes
    have spends : j.previousOutput ∈ preview.transaction.spends := by simp [Transaction.spends,second]
    exact free _ spends (reserved_exact.mpr ⟨_,entry,held,by simp [Transaction.spends,first,same]⟩)
  · intro contested
    obtain ⟨k,entry,held,o,inside,member⟩ := contested
    exact free o member (reserved_exact.mpr ⟨k,entry,held,inside⟩)

-- Some stored block, on the best chain or off it, holds this transaction.
def InStoredBlock (c : Crates) (s : Blockchain) (tx : Transaction) : Prop :=
  ∃ k b, s.getBlock k = some b ∧ tx.txid c ∈ b.transactions.map (Transaction.txid c)

theorem preview_admitted_exact (path : Operated c operations node) (lists : node.blockchain.Lists listing)
    (built : wallet.buildTransactionPreview node.blockchain listing node.mempool.reservedOutpoints recipient amount fee =
      .ok preview)
    (noCollision : Set.InjOn c.blake3 (serializations node.mempool preview.transaction))
    (enough : node.mempool.minimumRequiredFee preview.transaction ≤ fee)
    (room : node.mempool.size < node.mempool.maxSize) :
    (∃ next, node.submitTransaction c preview.transaction now = (next,.ok ()) ∧
      Holds next.mempool (preview.transaction.txid c) (entryOf preview.transaction fee now)) ↔
    ¬ InStoredBlock c node.blockchain preview.transaction := by
  obtain ⟨turns,served⟩ := operated_served path
  have kept := served_kept (served.weaken fun _ _ _ => trivial)
  obtain ⟨selected,parts⟩ := preview_built lists built
  have enters := built_enters kept.sound parts noCollision enough room
  constructor
  · intro admitted stored
    obtain ⟨next,ran,_⟩ := admitted
    have found := Confirmation.contains_exact.mpr stored
    simp [Node.submitTransaction,Node.quoteFee,found] at ran
  · intro fresh
    have unknown : node.blockchain.containsTransaction c (preview.transaction.txid c) ≠ true := fun found =>
      fresh (Confirmation.contains_exact.mp found)
    have quoted : Node.quoteFee c node.blockchain preview.transaction = .ok fee := by
      simp [Node.quoteFee,unknown,built_fee parts]
    have entered : Node.enterMempool c node.mempool preview.transaction fee now =
        .ok (withEntry c node.mempool (entryOf preview.transaction fee now)) := enterMempool_exact.mpr ⟨enters,rfl⟩
    refine ⟨⟨node.blockchain,withEntry c node.mempool (entryOf preview.transaction fee now)⟩,?_,withEntry_self⟩
    simp only [Node.submitTransaction,quoted,entered]

def recipientAddress : String := "BEC0123456789abcdef0123456789abcdef01234567"

def coinOf (tx : Transaction) (height : UInt64) : List (OutPoint × Utxo) :=
  tx.outputs.map fun output => (⟨tx.txid reference,0⟩,⟨output,height,true⟩)

def earnedCoins : List (OutPoint × Utxo) := coinOf Blockchain.genesisTx 0 ++ coinOf earnedCoinbase 1

def walletPayment : Transaction :=
  .new [⟨⟨earnedCoinbase.txid reference,0⟩,generatorKey,UInt32.ofNat (2^32 - 1)⟩]
    [⟨9000000000,utf8Bytes recipientAddress⟩,⟨999990000,generatorAddress⟩]

theorem preview_admitted_exact_earned : ∃ operations node preview, Operated reference operations node ∧
    generatorWallet.buildTransactionPreview node.blockchain earnedCoins node.mempool.reservedOutpoints recipientAddress
      9000000000 10000 = .ok preview ∧
    ∃ next, node.submitTransaction reference preview.transaction 0 = (next,.ok ()) ∧
      Holds next.mempool (preview.transaction.txid reference) (entryOf preview.transaction 10000 0) := by
  have fed : (Runs.feed (Node.call reference) (.inMemory reference) [.submitBlock earnBlock]).map (fun pair =>
      (decide (pair.1.blockchain.Lists earnedCoins),decide (pair.1.mempool = .new 10000 1),
        pair.1.blockchain.containsTransaction reference (walletPayment.txid reference),
        (generatorWallet.buildTransactionPreview pair.1.blockchain earnedCoins ∅ recipientAddress 9000000000 10000).map
          fun preview => preview.transaction)) =
      some (true,true,false,.ok walletPayment) := by decide +kernel
  obtain ⟨⟨node,answers⟩,ran,equal⟩ := Option.map_eq_some_iff.mp fed
  simp only [Prod.mk.injEq,decide_eq_true_eq] at equal
  obtain ⟨lists,empty,unknown,made⟩ := equal
  have free : node.mempool.reservedOutpoints = ∅ := by
    rw [empty]
    decide
  obtain ⟨preview,built,same⟩ := Fallible.map_ok.mp made
  rw [← free] at built
  refine ⟨_,node,preview,(Runs.feed_run ran).1,built,?_⟩
  apply (preview_admitted_exact (Runs.feed_run ran).1 lists built _ _ _).mpr
  · intro stored
    have found := Confirmation.contains_exact.mpr stored
    rw [same,unknown] at found
    cases found
  · intro x first y second _
    have only : ∀ bytes ∈ serializations node.mempool preview.transaction, bytes = preview.transaction.serialize := by
      intro bytes member
      rcases member with same | ⟨k,entry,held,_⟩
      · exact same
      · rw [empty] at held
        cases held
    rw [only x first,only y second]
  · rw [same,empty]
    decide +kernel
  · rw [empty]
    decide

-- A block with the wallet's payment, which `calmBlock` and `calmHeir` displace.
def walletBlock : Block := blockOn (earnBlock.hash reference) 2
  [createCoinbaseTransaction 2 100 [2],walletPayment]
def displacedCalls : List NodeCall :=
  [.submitBlock earnBlock,.submitBlock walletBlock,.submitBlock Confirmation.calmBlock,
    .submitBlock Confirmation.calmHeir]
def displacedCoins : List (OutPoint × Utxo) :=
  earnedCoins ++ coinOf (createCoinbaseTransaction 2 100 [5]) 2 ++ coinOf (createCoinbaseTransaction 3 100 [6]) 3

theorem displaced_preview_refused : ∃ operations node preview, Operated reference operations node ∧
    node.blockchain.Lists displacedCoins ∧
    generatorWallet.buildTransactionPreview node.blockchain displacedCoins node.mempool.reservedOutpoints
      recipientAddress 9000000000 10000 = .ok preview ∧
    node.mempool.minimumRequiredFee preview.transaction ≤ 10000 ∧ node.mempool.size < node.mempool.maxSize ∧
    node.submitTransaction reference preview.transaction 0 = (node,.error Confirmation.alreadyConfirmed) := by
  have fed : (Runs.feed (Node.call reference) (.inMemory reference) displacedCalls).map (fun pair =>
      (decide (pair.1.blockchain.Lists displacedCoins),decide (pair.1.mempool = .new 10000 1),
        (generatorWallet.buildTransactionPreview pair.1.blockchain displacedCoins ∅ recipientAddress 9000000000
          10000).map fun preview => preview.transaction,
        decide (Node.quoteFee reference pair.1.blockchain walletPayment = .error Confirmation.alreadyConfirmed))) =
      some (true,true,.ok walletPayment,true) := by decide +kernel
  obtain ⟨⟨node,answers⟩,ran,equal⟩ := Option.map_eq_some_iff.mp fed
  simp only [Prod.mk.injEq,decide_eq_true_eq] at equal
  obtain ⟨lists,empty,made,refused⟩ := equal
  have free : node.mempool.reservedOutpoints = ∅ := by
    rw [empty]
    decide
  obtain ⟨preview,built,same⟩ := Fallible.map_ok.mp made
  rw [← free] at built
  refine ⟨_,node,preview,(Runs.feed_run ran).1,lists,built,?_,?_,?_⟩
  · rw [same,empty]
    decide +kernel
  · rw [empty]
    decide
  · simp only [Node.submitTransaction,same,refused]

end BlindEye.WalletAdmission
