import BlindEye.SharedTurns
import BlindEye.SpendOnce
import Mathlib.Algebra.Order.Floor.Div

namespace BlindEye.PoolInvariants
open MempoolRules SharedTurns LedgerRules

variable {c : Crates} {pool : Mempool} {x next : SharedNode} {t : Turn} {calls : List (Turn × Answer)}
  {tx : Transaction} {entry : MempoolEntry}

structure Sound (c : Crates) (pool : Mempool) : Prop where
  apart : ∀ k entry k' other, Holds pool k entry → Holds pool k' other → k ≠ k' →
    entry.transaction.spends.Disjoint other.transaction.spends
  keyed : ∀ k entry, Holds pool k entry → entry.transaction.txid c = k
  spending : ∀ k entry, Holds pool k entry → entry.transaction.inputs ≠ []
  rated : ∀ k entry, Holds pool k entry →
    entry.feeRate.toNat = entry.feePaid.toNat ⌈/⌉ entry.transaction.estimatedSize
  room : pool.size ≤ pool.maxSize

-- The call that put the entry into the pool, and the pool that it met. The
-- product is the source's `saturating_mul`.
def Recorded (c : Crates) (calls : List (Turn × Answer)) (entry : MempoolEntry) : Prop :=
  ∃ earlier later mid, calls = earlier ++ (.enter entry.transaction entry.feePaid entry.receivedAt,.ok ()) :: later ∧
    Served c (fun _ _ => True) earlier mid ∧ mid.node.mempool.minFeeRate ≤ mid.node.mempool.standardFeeRate ∧
    min (entry.transaction.estimatedSize * mid.node.mempool.standardFeeRate.toNat) (2^64 - 1) ≤ entry.feePaid.toNat

structure Kept (c : Crates) (calls : List (Turn × Answer)) (x : SharedNode) : Prop where
  sound : Sound c x.node.mempool
  recorded : ∀ k entry, Holds x.node.mempool k entry → Recorded c calls entry
  rate : x.node.mempool.minFeeRate = 1
  quoted : ∀ tx feePaid, (tx,feePaid) ∈ x.quoted →
    ∃ utxoSet, validateTransactionAgainstUtxoSet c tx utxoSet = .ok feePaid

theorem estimatedSize_pos (tx : Transaction) : 0 < tx.estimatedSize := by
  simp only [Transaction.estimatedSize,Transaction.serialize,List.length_append,u32Bytes_length]
  omega

theorem minimumRequiredFee_toNat (pool : Mempool) (tx : Transaction) : (pool.minimumRequiredFee tx).toNat =
    min (tx.estimatedSize * pool.standardFeeRate.toNat) (2^64 - 1) := by
  rw [Mempool.minimumRequiredFee,saturate_toNat,Nat.max_eq_left (estimatedSize_pos tx)]

theorem standardFeeRate_le (pool : Mempool) : pool.minFeeRate ≤ pool.standardFeeRate := by
  have bound := pool.minFeeRate.toNat_lt
  rw [UInt64.le_iff_toNat_le,Mempool.standardFeeRate,saturate_toNat]
  omega

theorem entryOf_rated (tx : Transaction) (feePaid now : UInt64) :
    (entryOf tx feePaid now).feeRate.toNat = feePaid.toNat ⌈/⌉ tx.estimatedSize := by
  have bound := feePaid.toNat_lt
  have size := estimatedSize_pos tx
  have small : divCeil feePaid.toNat tx.estimatedSize ≤ feePaid.toNat := by
    unfold divCeil
    rw [Nat.div_le_iff_le_mul_add_pred size]
    have := Nat.le_mul_of_pos_left feePaid.toNat size
    omega
  rw [Nat.ceilDiv_eq_add_pred_div]
  simp only [entryOf,Nat.max_eq_left size]
  exact UInt64.toNat_ofNat_of_lt' (by rw [UInt64.size]; omega)

-- A transaction without inputs pays no fee.
theorem paid_spending (paid : validateTransactionAgainstUtxoSet c tx utxoSet = .ok feePaid) (positive : 0 < feePaid.toNat) :
    tx.inputs ≠ [] := by
  intro empty
  obtain ⟨_,_,_,balance⟩ := validateTransaction_exact.mp paid
  have nothing : inputTotal utxoSet tx = 0 := by simp [inputTotal,Transaction.spends,empty]
  omega

theorem new_empty (k : Digest) (entry : MempoolEntry) : ¬ Holds (.new maxSize minFeeRate) k entry := by
  intro held
  have absent : (Mempool.new maxSize minFeeRate).transactions.lookup k = none := rfl
  rw [Holds,absent] at held
  cases held

theorem new_sound (c : Crates) : Sound c (.new maxSize minFeeRate) :=
  ⟨fun k entry _ _ held => absurd held (new_empty k entry),fun k entry held => absurd held (new_empty k entry),
    fun k entry held => absurd held (new_empty k entry),fun k entry held => absurd held (new_empty k entry),
    Nat.zero_le _⟩

theorem withEntry_sound (sound : Sound c pool) (enters : Enters c pool tx feePaid) (spending : tx.inputs ≠ []) :
    Sound c (withEntry c pool (entryOf tx feePaid now)) := by
  have free : ∀ k entry, Holds pool k entry → entry.transaction.spends.Disjoint tx.spends := by
    intro k entry held o inside again
    exact enters.apart ⟨k,entry,held,o,inside,again⟩
  refine ⟨?_,?_,?_,?_,?_⟩
  · intro k entry k' other held held' differ
    rcases withEntry_held held with ⟨here,rfl⟩ | ⟨_,old⟩
    · rcases withEntry_held held' with ⟨there,_⟩ | ⟨_,old'⟩
      · exact absurd (here.trans there.symm) differ
      · exact (free k' other old').symm
    · rcases withEntry_held held' with ⟨_,rfl⟩ | ⟨_,old'⟩
      · exact free k entry old
      · exact sound.apart k entry k' other old old' differ
  · intro k entry held
    rcases withEntry_held held with ⟨here,rfl⟩ | ⟨_,old⟩
    · exact here.symm
    · exact sound.keyed k entry old
  · intro k entry held
    rcases withEntry_held held with ⟨_,rfl⟩ | ⟨_,old⟩
    · exact spending
    · exact sound.spending k entry old
  · intro k entry held
    rcases withEntry_held held with ⟨_,rfl⟩ | ⟨_,old⟩
    · exact entryOf_rated tx feePaid now
    · exact sound.rated k entry old
  · have room := enters.room
    have grown : (withEntry c pool (entryOf tx feePaid now)).size = pool.size + 1 := size_withEntry enters.fresh
    rw [grown]
    exact room

theorem removeConfirmed_sound (sound : Sound c pool) : Sound c (pool.removeConfirmedTransactions c confirmed) := by
  have old : ∀ {k entry}, Holds (pool.removeConfirmedTransactions c confirmed) k entry → Holds pool k entry :=
    fun held => (holds_removeConfirmed.mp held).1
  exact ⟨fun k entry k' other held held' => sound.apart k entry k' other (old held) (old held'),
    fun k entry held => sound.keyed k entry (old held),fun k entry held => sound.spending k entry (old held),
    fun k entry held => sound.rated k entry (old held),Nat.le_trans size_removeConfirmed sound.room⟩

theorem Recorded.extend (recorded : Recorded c calls entry) (call : Turn × Answer) : Recorded c (calls ++ [call]) entry := by
  obtain ⟨earlier,later,mid,split,path,rate,paid⟩ := recorded
  exact ⟨earlier,later ++ [call],mid,by rw [split,List.append_assoc]; rfl,path,rate,paid⟩

theorem new_kept (c : Crates) : Kept c [] (.inMemory c) :=
  ⟨new_sound c,fun k entry held => absurd held (new_empty k entry),rfl,
    fun _ _ member => absurd member List.not_mem_nil⟩

theorem entered_kept (path : Served c (fun _ _ => True) calls x) (kept : Kept c calls x) (held : (tx,feePaid) ∈ x.quoted)
    (enters : Enters c x.node.mempool tx feePaid) : Kept c (calls ++ [(.enter tx feePaid now,.ok ())])
      (withPool (unquoted x tx feePaid) (withEntry c x.node.mempool (entryOf tx feePaid now))) := by
  obtain ⟨utxoSet,paid⟩ := kept.quoted tx feePaid held
  have floor := standardFeeRate_le x.node.mempool
  have enough := UInt64.le_iff_toNat_le.mp enters.paid
  rw [minimumRequiredFee_toNat] at enough
  have positive : 0 < feePaid.toNat := by
    have rate : 1 ≤ x.node.mempool.standardFeeRate.toNat := by
      rw [kept.rate] at floor
      exact UInt64.le_iff_toNat_le.mp floor
    have product := Nat.mul_pos (estimatedSize_pos tx) rate
    omega
  refine ⟨withEntry_sound kept.sound enters (paid_spending paid positive),?_,kept.rate,?_⟩
  · intro k entry held
    rcases withEntry_held held with ⟨_,rfl⟩ | ⟨_,old⟩
    · exact ⟨calls,[],x,rfl,path,floor,enough⟩
    · exact (kept.recorded k entry old).extend _
  · exact fun tx' fee' member => kept.quoted tx' fee' (List.mem_of_mem_erase member)

theorem turned_kept (path : Served c (fun _ _ => True) calls x) (kept : Kept c calls x)
    (turned : Turned c x t next answer) : Kept c (calls ++ [(t,answer)]) next := by
  have later : ∀ k entry, Holds x.node.mempool k entry → Recorded c (calls ++ [(t,answer)]) entry :=
    fun k entry held => (kept.recorded k entry held).extend _
  cases turned with
  | quoteRefused | blockRefused | blockKept | resetBlockchain => exact ⟨kept.sound,later,kept.rate,kept.quoted⟩
  | @quoted tx feePaid quoted =>
    refine ⟨kept.sound,later,kept.rate,?_⟩
    intro tx' fee' member
    rcases List.mem_cons.mp member with here | old
    · cases here
      unfold Node.quoteFee at quoted
      split at quoted
      · cases quoted
      · exact ⟨_,quoted⟩
    · exact kept.quoted tx' fee' old
  | enterRefused =>
    exact ⟨kept.sound,later,kept.rate,fun tx' fee' member => kept.quoted tx' fee' (List.mem_of_mem_erase member)⟩
  | entered held enters => exact entered_kept path kept held enters
  | blockTip =>
    refine ⟨removeConfirmed_sound kept.sound,?_,kept.rate,kept.quoted⟩
    exact fun k entry held => later k entry (holds_removeConfirmed.mp held).1
  | resetMempool => exact ⟨new_sound c,fun k entry held => absurd held (new_empty k entry),rfl,kept.quoted⟩

theorem served_kept (path : Served c (fun _ _ => True) calls x) : Kept c calls x := by
  induction path with
  | nil => exact new_kept c
  | step path _ ran ih => exact turned_kept path ih (turn_sound ran)

theorem tip_unspent (turned : Turned c x (.submitBlock block) next (.ok ()))
    (tip : next.node.blockchain.bestChain.getLast? = some (block.hash c)) (held : Holds next.node.mempool k entry) :
    entry.transaction.spends.Disjoint (block.transactions.flatMap Transaction.spends) := by
  cases turned with
  | blockTip => exact (holds_removeConfirmed.mp held).2.unspent
  | blockKept _ off => exact absurd tip off

theorem pool_never_conflicts (path : Served c (fun _ _ => True) calls x) :
    Sound c x.node.mempool ∧ (∀ k entry, Holds x.node.mempool k entry → Recorded c calls entry) ∧
    ∀ block next, x.turn c (.submitBlock block) = some (next,.ok ()) →
      next.node.blockchain.bestChain.getLast? = some (block.hash c) → ∀ k entry, Holds next.node.mempool k entry →
        entry.transaction.spends.Disjoint (block.transactions.flatMap Transaction.spends) := by
  have kept := served_kept path
  exact ⟨kept.sound,kept.recorded,fun block next ran tip k entry held => tip_unspent (turn_sound ran) tip held⟩

-- A payment out of `earned` with a fee of 10000.
def pendingPayment : Transaction :=
  .new [⟨⟨earnedCoinbase.txid reference,0⟩,generatorKey,0⟩] [⟨9999990000,[9]⟩]
def pendingTurns : List Turn := [.submitBlock earnBlock,.quote pendingPayment,.enter pendingPayment 10000 0]

-- The owner earns a second reward, of another amount since its txid would be the first's
-- otherwise, and the payments of both wait in the pool.
def secondReward : Transaction := createCoinbaseTransaction 2 9999999999 generatorAddress
def pairedPayment : Transaction := .new [⟨⟨secondReward.txid reference,0⟩,generatorKey,0⟩] [⟨9999989999,[9]⟩]
def pairTurns : List Turn :=
  [.submitBlock earnBlock,.submitBlock (blockOn (earnBlock.hash reference) 2 [secondReward]),.quote pendingPayment,
    .quote pairedPayment,.enter pairedPayment 10000 0,.enter pendingPayment 10000 1]

theorem pool_never_conflicts_pair : ∃ calls, ∃ x : SharedNode, Served reference (fun _ _ => True) calls x ∧
    pendingPayment.txid reference ≠ pairedPayment.txid reference ∧
    Holds x.node.mempool (pendingPayment.txid reference) (entryOf pendingPayment 10000 1) ∧
    Holds x.node.mempool (pairedPayment.txid reference) (entryOf pairedPayment 10000 0) ∧
    Sound reference x.node.mempool ∧ ∀ k entry, Holds x.node.mempool k entry → Recorded reference calls entry := by
  have fed : (Runs.feed (SharedNode.turn reference) (.inMemory reference) pairTurns).map (fun pair =>
      (pair.1.node.mempool.transactions.lookup (pendingPayment.txid reference),
        pair.1.node.mempool.transactions.lookup (pairedPayment.txid reference))) =
      some (some (entryOf pendingPayment 10000 1),some (entryOf pairedPayment 10000 0)) := by decide +kernel
  obtain ⟨⟨x,answers⟩,ran,equal⟩ := Option.map_eq_some_iff.mp fed
  obtain ⟨one,two⟩ := Prod.mk.inj equal
  have path := (Runs.feed_run ran).1
  obtain ⟨sound,recorded,_⟩ := pool_never_conflicts path
  exact ⟨_,x,path,by decide +kernel,one,two,sound,recorded⟩

end BlindEye.PoolInvariants
