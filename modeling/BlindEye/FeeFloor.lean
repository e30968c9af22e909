import BlindEye.MempoolRules
import BlindEye.Reference

namespace BlindEye.FeeFloor
open MempoolRules

variable {c : Crates} {pool next : Mempool} {tx : Transaction} {feePaid now : UInt64} {entry : MempoolEntry}

-- The size that the fee rate of a transaction is computed with.
def billedSize (tx : Transaction) : Nat := max tx.estimatedSize 1

-- The entry pays the standard rate of the pool that it is in, and is not
-- skipped for its rate once the standard target has passed.
structure Mineable (pool : Mempool) (entry : MempoolEntry) : Prop where
  rate : pool.standardFeeRate ≤ entry.feeRate
  eligible : ∀ later : UInt64, entry.receivedAt.toNat + 60 ≤ later.toNat → pool.eligible later entry = true

-- The new entry is the one that begins a congestion step, and the rate can rise.
def Raised (pool : Mempool) : Prop := 20 ∣ pool.size ∧ pool.standardFeeRate.toNat < 2^64 - 1

instance : Decidable (Raised pool) := inferInstanceAs (Decidable (_ ∧ _))

-- The other case is the edge of the u64 arithmetic, where the required fee is cut off.
def FloorHolds (pool : Mempool) (tx : Transaction) (feePaid : UInt64) : Prop :=
  if Raised pool then billedSize tx * pool.standardFeeRate.toNat < feePaid.toNat
  else billedSize tx * (pool.standardFeeRate.toNat - 1) < 2^64 - 1

theorem billedSize_positive (tx : Transaction) : 0 < billedSize tx := Nat.lt_of_lt_of_le Nat.one_pos (Nat.le_max_right _ _)

theorem succ_le_divCeil (positive : 0 < size) : k + 1 ≤ divCeil n size ↔ size * k < n := by
  have expand : (k + 1) * size = size * k + size := by ring
  rw [divCeil,Nat.le_div_iff_mul_le positive,expand]
  omega

theorem divCeil_succ : divCeil (n + 1) congestionStepTransactions =
    divCeil n congestionStepTransactions + if 20 ∣ n then 1 else 0 := by
  unfold divCeil congestionStepTransactions
  split
  all_goals omega

theorem divCeil_fits (fee : UInt64) (positive : 0 < size) : divCeil fee.toNat size < 2^64 := by
  have bound := fee.toNat_lt
  by_contra large
  have larger : size * (2^64 - 1) < fee.toNat := (succ_le_divCeil positive).mp (by omega)
  have wide : 2^64 - 1 ≤ size * (2^64 - 1) := Nat.le_mul_of_pos_left _ positive
  omega

theorem entryOf_rate : (entryOf tx feePaid now).feeRate.toNat = divCeil feePaid.toNat (billedSize tx) :=
  UInt64.toNat_ofNat_of_lt' (divCeil_fits feePaid (billedSize_positive tx))

-- The standard rate before and after an insertion.
theorem standardFeeRate_withEntry (fresh : entry.transaction.txid c ∉ pool.transactions) :
    (withEntry c pool entry).standardFeeRate.toNat =
      if Raised pool then pool.standardFeeRate.toNat + 1 else pool.standardFeeRate.toNat := by
  have grown : (withEntry c pool entry).standardFeeRate =
      saturate (pool.minFeeRate.toNat + divCeil (pool.size + 1) congestionStepTransactions) := by
    rw [← size_withEntry fresh]
    rfl
  have before : pool.standardFeeRate.toNat =
      min (pool.minFeeRate.toNat + divCeil pool.size congestionStepTransactions) (2^64 - 1) := saturate_toNat _
  rw [grown,divCeil_succ,saturate_toNat]
  by_cases raised : Raised pool
  · have low := raised.2
    rw [if_pos raised,if_pos raised.1]
    omega
  · rw [if_neg raised]
    split
    · rename_i begins
      have full : ¬ pool.standardFeeRate.toNat < 2^64 - 1 := fun low => raised ⟨begins,low⟩
      omega
    · omega

theorem rate_positive (full : 0 < pool.size) : 0 < pool.standardFeeRate.toNat := by
  have step : 1 ≤ divCeil pool.size congestionStepTransactions := (succ_le_divCeil (by decide)).mpr (by omega)
  unfold Mempool.standardFeeRate
  rw [saturate_toNat]
  omega

theorem minimumRequiredFee_exact : pool.minimumRequiredFee tx ≤ feePaid ↔
    min (billedSize tx * pool.standardFeeRate.toNat) (2^64 - 1) ≤ feePaid.toNat := by
  rw [UInt64.le_iff_toNat_le,Mempool.minimumRequiredFee,saturate_toNat]
  rfl

theorem eligible_exact : Mineable pool entry ↔ pool.standardFeeRate ≤ entry.feeRate := by
  constructor
  · exact Mineable.rate
  · intro rate
    refine ⟨rate,?_⟩
    intro later waited
    have standard : ¬ later < saturate (entry.receivedAt.toNat + standardConfirmationTargetSeconds.toNat) := by
      rw [UInt64.lt_iff_toNat_lt,saturate_toNat]
      change ¬ later.toNat < min (entry.receivedAt.toNat + 60) _
      omega
    have instant : ¬ later < saturate (entry.receivedAt.toNat + instantConfirmationTargetSeconds.toNat) := by
      rw [UInt64.lt_iff_toNat_lt,saturate_toNat]
      change ¬ later.toNat < min (entry.receivedAt.toNat + 0) _
      omega
    unfold Mempool.eligible
    split
    · simpa using instant
    · simpa using standard

theorem rate_exact (now : UInt64) (fresh : tx.txid c ∉ pool.transactions) (paid : pool.minimumRequiredFee tx ≤ feePaid) :
    (withEntry c pool (entryOf tx feePaid now)).standardFeeRate ≤ (entryOf tx feePaid now).feeRate ↔
      FloorHolds pool tx feePaid := by
  have positive := billedSize_positive tx
  have bound := feePaid.toNat_lt
  have paid := minimumRequiredFee_exact.mp paid
  have fresh : (entryOf tx feePaid now).transaction.txid c ∉ pool.transactions := fresh
  rw [UInt64.le_iff_toNat_le,entryOf_rate,standardFeeRate_withEntry fresh]
  unfold FloorHolds
  split
  · exact succ_le_divCeil positive
  · rename_i level
    cases rate : pool.standardFeeRate.toNat with
    | zero =>
      -- an empty pool with a rate of 0 would begin a step
      have raised : Raised pool := by
        refine ⟨?_,by omega⟩
        by_contra stepped
        have full : 0 < pool.size := Nat.pos_of_ne_zero fun empty => stepped (empty ▸ Nat.dvd_zero 20)
        have positive := rate_positive full
        omega
      exact absurd raised level
    | succ r =>
      rw [rate] at paid
      rw [succ_le_divCeil positive,Nat.add_sub_cancel]
      have wider : billedSize tx * (r + 1) = billedSize tx * r + billedSize tx := Nat.mul_succ _ _
      omega

theorem admitted_mineable_exact (room : pool.size < pool.maxSize) (fresh : tx.txid c ∉ pool.transactions)
    (paid : pool.minimumRequiredFee tx ≤ feePaid) :
    (∃ next entry, pool.addTransaction c tx feePaid now = .ok next ∧ Holds next (tx.txid c) entry ∧
      entry.transaction = tx ∧ entry.receivedAt = now ∧ Mineable next entry) ↔ FloorHolds pool tx feePaid := by
  rw [← rate_exact now fresh paid,← eligible_exact]
  constructor
  · intro mined
    obtain ⟨next,entry,added,held,_,_,mineable⟩ := mined
    obtain ⟨_,_,rfl⟩ := addTransaction_exact.mp added
    have own : Holds (withEntry c pool (entryOf tx feePaid now)) (tx.txid c) (entryOf tx feePaid now) := withEntry_self
    obtain rfl := Option.some.inj (own.symm.trans held)
    exact mineable
  · intro mineable
    exact ⟨_,_,addTransaction_exact.mpr ⟨room,fresh,rfl⟩,withEntry_self,rfl,rfl,mineable⟩

-- An entry below the standard rate waits for as long as the pool stays as it is.
theorem skipped (low : entry.feeRate < pool.standardFeeRate) (later : UInt64) : pool.eligible later entry = false := by
  have instant : ¬ pool.instantFeeRate ≤ entry.feeRate := by
    rw [UInt64.lt_iff_toNat_lt] at low
    rw [UInt64.le_iff_toNat_le]
    unfold Mempool.instantFeeRate
    dsimp only
    rw [saturate_toNat]
    have bound := pool.standardFeeRate.toNat_lt
    omega
  unfold Mempool.eligible
  rw [if_neg instant,if_neg (UInt64.not_le.mpr low)]

def plainPayment : Transaction := .new [⟨⟨.zero,0⟩,generatorKey,0⟩] [⟨1,[7]⟩]

theorem admitted_mineable_exact_generous :
    ∃ next entry, (Mempool.new 10000 1).addTransaction reference plainPayment 111 0 = .ok next ∧
      Holds next (plainPayment.txid reference) entry ∧ entry.transaction = plainPayment ∧ entry.receivedAt = 0 ∧
      Mineable next entry := by
  have floor : FloorHolds (Mempool.new 10000 1) plainPayment 111 := by
    rw [FloorHolds,if_pos (by decide)]
    decide
  exact (admitted_mineable_exact (by decide) Finmap.notMem_empty (by decide)).mpr floor

-- The payment of 110 bytes pays the required 110 units at rate 1, and its own
-- entry raises the rate to 2.
theorem exact_fee_stuck : (Mempool.new 10000 1).minimumRequiredFee plainPayment = 110 ∧
    Enters reference (Mempool.new 10000 1) plainPayment 110 ∧
    ∃ next entry, (Mempool.new 10000 1).addTransaction reference plainPayment 110 0 = .ok next ∧
      Holds next (plainPayment.txid reference) entry ∧ ¬ Mineable next entry ∧
      ∀ later, next.eligible later entry = false := by
  have fresh : plainPayment.txid reference ∉ (Mempool.new 10000 1).transactions := Finmap.notMem_empty
  have enters : Enters reference (Mempool.new 10000 1) plainPayment 110 := by
    refine ⟨fresh,by decide,?_,by decide⟩
    intro contested
    obtain ⟨_,_,held,_⟩ := contested
    cases held
  have low : (entryOf plainPayment 110 0).feeRate <
      (withEntry reference (Mempool.new 10000 1) (entryOf plainPayment 110 0)).standardFeeRate := by
    have fresh : (entryOf plainPayment 110 0).transaction.txid reference ∉ (Mempool.new 10000 1).transactions := fresh
    rw [UInt64.lt_iff_toNat_lt,standardFeeRate_withEntry fresh]
    decide
  have added : (Mempool.new 10000 1).addTransaction reference plainPayment 110 0 =
      .ok (withEntry reference (Mempool.new 10000 1) (entryOf plainPayment 110 0)) :=
    addTransaction_exact.mpr ⟨enters.room,fresh,rfl⟩
  refine ⟨by decide,enters,withEntry reference (Mempool.new 10000 1) (entryOf plainPayment 110 0),
    entryOf plainPayment 110 0,added,withEntry_self,?_,skipped low⟩
  exact fun mineable => UInt64.not_le.mpr low mineable.rate

end BlindEye.FeeFloor
