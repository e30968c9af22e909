import BlindEye.LedgerRules
import BlindEye.Node

namespace BlindEye.MempoolRules
open LedgerRules

variable {c : Crates} {pool next : Mempool} {tx : Transaction} {entry : MempoolEntry} {confirmed : List Transaction}
  {values : List MempoolEntry}

abbrev Holds (pool : Mempool) (txid : Digest) (entry : MempoolEntry) : Prop :=
  pool.transactions.lookup txid = some entry

-- Every entry is stored under its own txid.
def Keyed (c : Crates) (pool : Mempool) : Prop := ∀ k entry, Holds pool k entry → entry.transaction.txid c = k

-- An entry spends an outpoint that `tx` spends.
def Contested (pool : Mempool) (tx : Transaction) : Prop :=
  ∃ txid entry, Holds pool txid entry ∧ ∃ o ∈ entry.transaction.spends, o ∈ tx.spends

-- What the section under the mempool lock asks of a transaction.
structure Enters (c : Crates) (pool : Mempool) (tx : Transaction) (feePaid : UInt64) : Prop where
  fresh : tx.txid c ∉ pool.transactions
  paid : pool.minimumRequiredFee tx ≤ feePaid
  apart : ¬ Contested pool tx
  room : pool.size < pool.maxSize

def entryOf (tx : Transaction) (feePaid now : UInt64) : MempoolEntry :=
  ⟨tx,feePaid,UInt64.ofNat (divCeil feePaid.toNat (max tx.estimatedSize 1)),now⟩

def withEntry (c : Crates) (pool : Mempool) (entry : MempoolEntry) : Mempool :=
  { pool with transactions := pool.transactions.insert (entry.transaction.txid c) entry }

-- What `remove_confirmed_transactions` keeps.
structure Untouched (c : Crates) (confirmed : List Transaction) (txid : Digest) (entry : MempoolEntry) : Prop where
  unconfirmed : txid ∉ confirmed.map (Transaction.txid c)
  unspent : ∀ o ∈ entry.transaction.spends, o ∉ confirmed.flatMap Transaction.spends

theorem hasConflictingInputs_exact : pool.hasConflictingInputs tx = true ↔ Contested pool tx := by
  unfold Mempool.hasConflictingInputs Contested Transaction.spends
  rw [FiniteMap.any_exact]
  simp only [List.any_eq_true,beq_iff_eq,List.mem_map]
  constructor
  · intro conflict
    obtain ⟨txid,entry,held,input,inside,candidate,member,same⟩ := conflict
    exact ⟨txid,entry,held,_,⟨input,inside,rfl⟩,candidate,member,same⟩
  · intro conflict
    obtain ⟨txid,entry,held,_,⟨input,inside,rfl⟩,candidate,member,same⟩ := conflict
    exact ⟨txid,entry,held,input,inside,candidate,member,same⟩

theorem addTransaction_exact : pool.addTransaction c tx feePaid now = .ok next ↔
    pool.size < pool.maxSize ∧ tx.txid c ∉ pool.transactions ∧ next = withEntry c pool (entryOf tx feePaid now) := by
  unfold Mempool.addTransaction Mempool.containsTransaction
  by_cases full : pool.size ≥ pool.maxSize
  · simp [full]
  · by_cases known : tx.txid c ∈ pool.transactions
    · simp [full,known]
    · simp [full,known,withEntry,entryOf,eq_comm,Nat.not_le.mp full]

theorem enterMempool_exact : Node.enterMempool c pool tx feePaid now = .ok next ↔
    Enters c pool tx feePaid ∧ next = withEntry c pool (entryOf tx feePaid now) := by
  unfold Node.enterMempool
  constructor
  · intro entered
    split at entered
    · cases entered
    · rename_i fresh
      split at entered
      · cases entered
      · rename_i paid
        split at entered
        · cases entered
        · rename_i apart
          obtain ⟨room,fresh,rfl⟩ := addTransaction_exact.mp entered
          exact ⟨⟨fresh,UInt64.not_lt.mp paid,fun contested => apart (hasConflictingInputs_exact.mpr contested),room⟩,rfl⟩
  · intro entered
    obtain ⟨⟨fresh,paid,apart,room⟩,rfl⟩ := entered
    have calm : ¬ pool.hasConflictingInputs tx = true := fun conflict => apart (hasConflictingInputs_exact.mp conflict)
    have unknown : ¬ pool.containsTransaction (tx.txid c) = true := by simpa [Mempool.containsTransaction] using fresh
    rw [if_neg unknown,if_neg (UInt64.not_lt.mpr paid),if_neg calm]
    exact addTransaction_exact.mpr ⟨room,fresh,rfl⟩

theorem holds_withEntry : Holds (withEntry c pool entry) k held ↔
    if k = entry.transaction.txid c then held = entry else Holds pool k held := by
  unfold Holds withEntry
  split
  · rename_i equal
    subst equal
    rw [Finmap.lookup_insert,Option.some.injEq,eq_comm]
  · rename_i other
    rw [Finmap.lookup_insert_of_ne _ other]

theorem withEntry_self : Holds (withEntry c pool entry) (entry.transaction.txid c) entry := Finmap.lookup_insert _

-- An insertion leaves the entries under other keys as they are.
theorem withEntry_held (held : Holds (withEntry c pool entry) k other) :
    k = entry.transaction.txid c ∧ other = entry ∨ k ≠ entry.transaction.txid c ∧ Holds pool k other := by
  rw [holds_withEntry] at held
  split at held
  · rename_i equal; exact .inl ⟨equal,held⟩
  · rename_i differs; exact .inr ⟨differs,held⟩

theorem size_withEntry (fresh : entry.transaction.txid c ∉ pool.transactions) :
    (withEntry c pool entry).size = pool.size + 1 := by
  have grown := FiniteMap.total_insert_fresh (f := fun _ => 1) (v := entry) fresh
  rw [FiniteMap.total_one,FiniteMap.total_one] at grown
  exact grown

theorem holds_removeConfirmed : Holds (pool.removeConfirmedTransactions c confirmed) k entry ↔
    Holds pool k entry ∧ Untouched c confirmed k entry := by
  unfold Holds Mempool.removeConfirmedTransactions
  rw [FiniteMap.lookup_retain]
  simp only [Bool.and_eq_true,decide_eq_true_eq,Bool.not_eq_true',List.any_eq_false]
  apply and_congr_right
  intro _
  constructor
  · intro untouched
    obtain ⟨unconfirmed,unspent⟩ := untouched
    refine ⟨unconfirmed,?_⟩
    intro o member
    obtain ⟨input,inside,rfl⟩ := List.mem_map.mp member
    exact unspent input inside
  · intro untouched
    obtain ⟨unconfirmed,unspent⟩ := untouched
    exact ⟨unconfirmed,fun input inside => unspent _ (List.mem_map_of_mem inside)⟩

theorem size_removeConfirmed : (pool.removeConfirmedTransactions c confirmed).size ≤ pool.size :=
  FiniteMap.card_retain_le

theorem yields_exact (order : pool.Yields values) : entry ∈ values ↔ ∃ k, Holds pool k entry :=
  FiniteMap.yields_exact order

theorem yields_distinct (keyed : Keyed c pool) (order : pool.Yields values) :
    (values.map fun entry => entry.transaction.txid c).Nodup := FiniteMap.yields_distinct keyed order

end BlindEye.MempoolRules
