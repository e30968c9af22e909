import BlindEye.Library.Greedy
import BlindEye.Library.ShortestPrefix
import BlindEye.MempoolRules
import BlindEye.Reference

namespace BlindEye.BlockSelection
open Greedy MempoolRules ShortestPrefix

variable {c : Crates} {pool : Mempool} {now maxSize totalSize totalFees : UInt64}
  {values other entries taken : List MempoolEntry} {a b entry : MempoolEntry}

-- The order of the block: by fee rate, then by age, then by fee, then by txid.
def Before (c : Crates) (a b : MempoolEntry) : Prop :=
  b.feeRate < a.feeRate ∨ b.feeRate = a.feeRate ∧
    (a.receivedAt < b.receivedAt ∨ a.receivedAt = b.receivedAt ∧
      (b.feePaid < a.feePaid ∨ b.feePaid = a.feePaid ∧ (b.transaction.txid c).bytes < (a.transaction.txid c).bytes))

instance : Decidable (Before c a b) := inferInstanceAs (Decidable (_ ∨ _))

-- The delay of the lane that the fee rate pays for.
def delay (pool : Mempool) (entry : MempoolEntry) : Nat :=
  if pool.instantFeeRate ≤ entry.feeRate then instantConfirmationTargetSeconds.toNat
  else standardConfirmationTargetSeconds.toNat

-- An entry that pays the standard rate and is old enough. No clock shows a second
-- after u64::MAX, so everything is old enough then.
structure Eligible (pool : Mempool) (now : UInt64) (entry : MempoolEntry) : Prop where
  pays : pool.standardFeeRate ≤ entry.feeRate
  old : entry.receivedAt.toNat + delay pool entry ≤ now.toNat ∨ now.toNat = 2^64 - 1

def entrySize (entry : MempoolEntry) : Nat := entry.transaction.estimatedSize
def entryFee (entry : MempoolEntry) : Nat := entry.feePaid.toNat

-- A sum of sizes within the limit. Sums stop at u64::MAX, which no limit is below.
def Within (n : Nat) (maxSize : UInt64) : Prop := n ≤ maxSize.toNat ∨ maxSize.toNat = 2^64 - 1

-- What the pass takes after the entries taken before.
def Admits (pool : Mempool) (now maxSize : UInt64) (taken : List MempoolEntry) (entry : MempoolEntry) : Prop :=
  Eligible pool now entry ∧ Within (weigh entrySize taken + entrySize entry) maxSize

theorem standard_le (pool : Mempool) : pool.standardFeeRate ≤ pool.instantFeeRate := by
  have instant : pool.instantFeeRate.toNat = _ := saturate_toNat _
  have bound := pool.standardFeeRate.toNat_lt
  apply UInt64.le_iff_toNat_le.mpr
  omega

theorem eligible_exact : pool.eligible now entry = true ↔ Eligible pool now entry := by
  have word := now.toNat_lt
  have aged : ∀ wait : UInt64, (¬ now < saturate (entry.receivedAt.toNat + wait.toNat)) ↔
      entry.receivedAt.toNat + wait.toNat ≤ now.toNat ∨ now.toNat = 2^64 - 1 := by
    intro wait
    rw [UInt64.lt_iff_toNat_lt,saturate_toNat]
    omega
  unfold Mempool.eligible
  by_cases instant : entry.feeRate ≥ pool.instantFeeRate
  · have lane : delay pool entry = instantConfirmationTargetSeconds.toNat := if_pos instant
    rw [if_pos instant,decide_eq_true_iff,aged]
    constructor
    · intro old
      exact ⟨UInt64.le_trans (standard_le pool) instant,by rw [lane]; exact old⟩
    · intro eligible
      rw [← lane]
      exact eligible.old
  · have lane : delay pool entry = standardConfirmationTargetSeconds.toNat := if_neg instant
    rw [if_neg instant]
    by_cases standard : entry.feeRate ≥ pool.standardFeeRate
    · rw [if_pos standard,decide_eq_true_iff,aged]
      constructor
      · intro old
        exact ⟨standard,by rw [lane]; exact old⟩
      · intro eligible
        rw [← lane]
        exact eligible.old
    · rw [if_neg standard]
      simp only [Bool.false_eq_true,false_iff]
      exact fun eligible => standard eligible.pays

-- The accumulators of the loop hold what the taken entries weigh.
structure Accumulated (taken : List MempoolEntry) (selected : List Transaction) (totalSize totalFees : UInt64) : Prop where
  selected : selected = taken.map MempoolEntry.transaction
  size : totalSize.toNat = min (weigh entrySize taken) (2^64 - 1)
  fees : totalFees.toNat = min (weigh entryFee taken) (2^64 - 1)

theorem selectEntries_picks (held : Accumulated taken selected totalSize totalFees) (room : taken.length < 10) :
    ∃ chosen, Picks (Admits pool now maxSize) 10 taken entries chosen ∧
      (pool.selectEntries now maxSize entries selected totalSize totalFees).1 =
        (taken ++ chosen).map MempoolEntry.transaction ∧
      (pool.selectEntries now maxSize entries selected totalSize totalFees).2.toNat =
        min (weigh entryFee (taken ++ chosen)) (2^64 - 1) := by
  induction entries generalizing taken selected totalSize totalFees with
  | nil => exact ⟨[],.done,by rw [List.append_nil]; exact held.selected,by rw [List.append_nil]; exact held.fees⟩
  | cons entry rest ih =>
    have size := saturate_toNat (totalSize.toNat + entry.transaction.estimatedSize)
    have fees := saturate_toNat (totalFees.toNat + entry.feePaid.toNat)
    have limit := maxSize.toNat_lt
    have fits : saturate (totalSize.toNat + entry.transaction.estimatedSize) > maxSize ↔
        ¬ Within (weigh entrySize taken + entrySize entry) maxSize := by
      rw [gt_iff_lt,UInt64.lt_iff_toNat_lt,size,held.size]
      change _ ↔ ¬ (_ + entry.transaction.estimatedSize ≤ _ ∨ _)
      omega
    unfold Mempool.selectEntries
    by_cases eligible : Eligible pool now entry
    · rw [if_neg (not_not.mpr (eligible_exact.mpr eligible))]
      dsimp only
      by_cases within : Within (weigh entrySize taken + entrySize entry) maxSize
      · have grown : Accumulated (taken ++ [entry]) (selected ++ [entry.transaction])
            (saturate (totalSize.toNat + entry.transaction.estimatedSize))
            (saturate (totalFees.toNat + entry.feePaid.toNat)) := by
          refine ⟨by rw [held.selected,List.map_append]; rfl,?_,?_⟩
          · rw [size,held.size,weigh_append,weigh_cons,weigh_nil,entrySize]
            omega
          · rw [fees,held.fees,weigh_append,weigh_cons,weigh_nil,entryFee]
            omega
        rw [if_neg (fun exceeds => fits.mp exceeds within)]
        have length : (selected ++ [entry.transaction]).length = taken.length + 1 := by simp [held.selected]
        by_cases last : (selected ++ [entry.transaction]).length ≥ 10
        · rw [if_pos last]
          refine ⟨[entry],.take room ⟨eligible,within⟩ (.full ?_),grown.selected,grown.fees⟩
          rw [List.length_append,List.length_singleton]
          omega
        · rw [if_neg last]
          obtain ⟨chosen,picks,same,sum⟩ := ih grown (by rw [List.length_append,List.length_singleton]; omega)
          refine ⟨entry :: chosen,.take room ⟨eligible,within⟩ picks,?_,?_⟩
          · rw [same,List.append_assoc]
            rfl
          · rw [sum,List.append_assoc]
            rfl
      · rw [if_pos (fits.mpr within)]
        obtain ⟨chosen,picks,same,sum⟩ := ih held room
        exact ⟨chosen,.skip (fun admitted => within admitted.2) picks,same,sum⟩
    · rw [if_pos (fun yes => eligible (eligible_exact.mp yes))]
      obtain ⟨chosen,picks,same,sum⟩ := ih held room
      exact ⟨chosen,.skip (fun admitted => eligible admitted.1) picks,same,sum⟩

def sorted (c : Crates) (values : List MempoolEntry) : List MempoolEntry :=
  values.insertionSort fun left right => (Mempool.blockOrder c left right).isLE

theorem selection_picks (c : Crates) (pool : Mempool) (values : List MempoolEntry) (now maxSize : UInt64) :
    ∃ chosen, Picks (Admits pool now maxSize) 10 [] (sorted c values) chosen ∧
      (pool.getTransactionsForBlock c values now maxSize).1 = chosen.map MempoolEntry.transaction ∧
      (pool.getTransactionsForBlock c values now maxSize).2.toNat = min (weigh entryFee chosen) (2^64 - 1) :=
  selectEntries_picks ⟨rfl,rfl,rfl⟩ (by simp)

-- The byte-wise comparison of the txids is the order of lists.
theorem compare_bytes (x y : List UInt8) : compare x y = .lt ↔ x < y := by
  induction x generalizing y with
  | nil => cases y <;> simp
  | cons head tail ih =>
    cases y with
    | nil => simp
    | cons first rest =>
      have later := ih rest
      rw [List.compare_eq_compareLex] at later ⊢
      rw [List.compareLex_cons_cons,Ordering.then_eq_lt,later,List.cons_lt_cons_iff,Std.compare_eq_lt,Std.compare_eq_iff_eq]

instance blockOrder_trans (c : Crates) : Std.TransCmp (Mempool.blockOrder c) := by
  have rate : Std.TransCmp (fun left right : MempoolEntry => compare right.feeRate left.feeRate) :=
    @Std.TransCmp.opposite _ (compareOn MempoolEntry.feeRate) inferInstance
  have fee : Std.TransCmp (fun left right : MempoolEntry => compare right.feePaid left.feePaid) :=
    @Std.TransCmp.opposite _ (compareOn MempoolEntry.feePaid) inferInstance
  have txid : Std.TransCmp (fun left right : MempoolEntry =>
      compare (right.transaction.txid c).bytes (left.transaction.txid c).bytes) :=
    @Std.TransCmp.opposite _ (compareOn fun entry : MempoolEntry => (entry.transaction.txid c).bytes) inferInstance
  exact inferInstanceAs (Std.TransCmp (compareLex (fun left right : MempoolEntry => compare right.feeRate left.feeRate)
    (compareLex (compareOn MempoolEntry.receivedAt) (compareLex
      (fun left right : MempoolEntry => compare right.feePaid left.feePaid) (fun left right : MempoolEntry =>
        compare (right.transaction.txid c).bytes (left.transaction.txid c).bytes)))))

theorem blockOrder_before : Mempool.blockOrder c a b = .lt ↔ Before c a b := by
  simp only [Mempool.blockOrder,Ordering.then_eq_lt,Std.compare_eq_lt,Std.compare_eq_iff_eq,compare_bytes,Before]

theorem blockOrder_txid (tied : Mempool.blockOrder c a b = .eq) : a.transaction.txid c = b.transaction.txid c := by
  simp only [Mempool.blockOrder,Ordering.then_eq_eq,Std.compare_eq_iff_eq] at tied
  exact Digest.ext_bytes tied.2.2.2.symm

-- Entries under their own txids are never tied.
def Distinct (c : Crates) (entries : List MempoolEntry) : Prop :=
  (entries.map fun entry => entry.transaction.txid c).Nodup

theorem distinct_same (distinct : Distinct c entries) (first : a ∈ entries) (second : b ∈ entries)
    (tied : Mempool.blockOrder c a b = .eq) : a = b :=
  List.inj_on_of_nodup_map distinct first second (blockOrder_txid tied)

instance (c : Crates) : Std.Total fun left right : MempoolEntry => (Mempool.blockOrder c left right).isLE = true where
  total left right := by
    have flipped : Mempool.blockOrder c right left = (Mempool.blockOrder c left right).swap := Std.OrientedCmp.eq_swap
    rw [flipped]
    cases Mempool.blockOrder c left right <;> simp

instance (c : Crates) : IsTrans MempoolEntry fun left right => (Mempool.blockOrder c left right).isLE = true where
  trans _ _ _ := Std.TransCmp.isLE_trans

theorem sorted_order (c : Crates) (values : List MempoolEntry) :
    (sorted c values).Pairwise fun left right => (Mempool.blockOrder c left right).isLE = true :=
  List.pairwise_insertionSort _ values

theorem sorted_perm (c : Crates) (values : List MempoolEntry) : (sorted c values).Perm values :=
  List.perm_insertionSort _ values

theorem sorted_distinct (distinct : Distinct c values) : Distinct c (sorted c values) :=
  ((sorted_perm c values).map _).nodup_iff.mpr distinct

-- Every order in which the map may yield its values is sorted into the same list.
theorem sorted_unique (distinct : Distinct c values) (same : values.Perm other) : sorted c values = sorted c other := by
  have perm := ((sorted_perm c values).trans same).trans (sorted_perm c other).symm
  refine List.Perm.eq_of_pairwise ?_ (sorted_order c values) (sorted_order c other) perm
  intro a b first second one two
  exact distinct_same (sorted_distinct distinct) first (perm.mem_iff.mpr second) (Std.OrientedCmp.isLE_antisymm one two)

theorem sorted_before (distinct : Distinct c values) : (sorted c values).Pairwise (Before c) := by
  have apart := List.pairwise_map.mp (sorted_distinct distinct)
  refine ((sorted_order c values).and apart).imp ?_
  intro a b both
  obtain ⟨order,differ⟩ := both
  rw [← blockOrder_before]
  cases outcome : Mempool.blockOrder c a b with
  | lt => rfl
  | eq => exact absurd (blockOrder_txid outcome) differ
  | gt => rw [outcome] at order; cases order

theorem before_asymm (order : Before c a b) : ¬ Before c b a := by
  rw [← blockOrder_before] at order ⊢
  have flipped : Mempool.blockOrder c b a = (Mempool.blockOrder c a b).swap := Std.OrientedCmp.eq_swap
  rw [flipped,order]
  decide

-- The selected entries that the order puts before this one.
def ahead (c : Crates) (chosen : List MempoolEntry) (entry : MempoolEntry) : List MempoolEntry :=
  chosen.filter fun other => decide (Before c other entry)

-- What makes a list of entries the greedy choice from the pool.
structure Selection (c : Crates) (pool : Mempool) (now maxSize : UInt64) (chosen : List MempoolEntry) : Prop where
  held : ∀ entry ∈ chosen, Holds pool (entry.transaction.txid c) entry
  eligible : ∀ entry ∈ chosen, Eligible pool now entry
  once : Distinct c chosen
  ordered : chosen.Pairwise (Before c)
  few : chosen.length ≤ 10
  small : Within (weigh entrySize chosen) maxSize
  maximal : ∀ k entry, Holds pool k entry → Eligible pool now entry → entry ∉ chosen →
    (ahead c chosen entry).length = 10 ∨ maxSize.toNat < weigh entrySize (ahead c chosen entry) + entrySize entry

theorem ahead_split {chosen before after front back : List MempoolEntry} (split : sorted c values = front ++ entry :: back)
    (distinct : Distinct c values) (joined : chosen = before ++ after) (sub : before.Sublist front)
    (tail : after.Sublist (entry :: back)) (absent : entry ∉ chosen) : ahead c chosen entry = before := by
  have order := sorted_before distinct
  rw [split,List.pairwise_append] at order
  obtain ⟨_,later,across⟩ := order
  have earlier : ∀ other ∈ before, Before c other entry :=
    fun other member => across other (sub.subset member) entry List.mem_cons_self
  have none : ∀ other ∈ after, ¬ Before c other entry := by
    intro other member
    rcases List.mem_cons.mp (tail.subset member) with rfl | behind
    · exact absurd (joined ▸ List.mem_append_right before member) absent
    · exact before_asymm ((List.pairwise_cons.mp later).1 other behind)
  rw [ahead,joined,List.filter_append,List.filter_eq_self.mpr (by simpa using earlier),
    List.filter_eq_nil_iff.mpr (by simpa using none),List.append_nil]

theorem picks_selection (keyed : Keyed c pool) (order : pool.Yields values) {chosen : List MempoolEntry}
    (picks : Picks (Admits pool now maxSize) 10 [] (sorted c values) chosen) : Selection c pool now maxSize chosen := by
  have distinct : Distinct c values := yields_distinct keyed order
  have inside : ∀ entry, entry ∈ sorted c values ↔ ∃ k, Holds pool k entry := by
    intro entry
    rw [(sorted_perm c values).mem_iff]
    exact yields_exact order
  have admitted : ∀ entry ∈ chosen, Eligible pool now entry := by
    intro entry member
    obtain ⟨before,after,split⟩ := List.append_of_mem member
    exact (picks.admitted split).1
  refine ⟨?_,admitted,?_,(sorted_before distinct).sublist picks.sublist,?_,?_,?_⟩
  · intro entry member
    obtain ⟨k,stored⟩ := (inside entry).mp (picks.sublist.subset member)
    rw [keyed k entry stored]
    exact stored
  · exact (sorted_distinct distinct).sublist (picks.sublist.map _)
  · have few := picks.few (Nat.zero_le 10)
    simpa using few
  · rcases List.eq_nil_or_concat chosen with rfl | ⟨before,last,rfl⟩
    · exact .inl (Nat.zero_le _)
    · have room := (picks.admitted List.concat_eq_append).2
      rw [List.nil_append] at room
      rw [List.concat_eq_append,weigh_append,weigh_cons,weigh_nil]
      exact room
  · intro k entry stored eligible absent
    obtain ⟨front,back,split⟩ := List.append_of_mem ((inside entry).mpr ⟨k,stored⟩)
    obtain ⟨before,after,joined,sub,tail,fate⟩ := picks.left split
    rw [ahead_split split distinct joined sub tail absent]
    rcases fate with taken | full | refused
    · exact absurd (joined ▸ List.mem_append_right before taken) absent
    · have few := picks.few (Nat.zero_le 10)
      rw [joined,List.length_append] at few
      simp only [List.length_nil] at full few
      left
      omega
    · right
      have outside : ¬ Within (weigh entrySize before + entrySize entry) maxSize := fun within => refused ⟨eligible,within⟩
      have word := maxSize.toNat_lt
      unfold Within at outside
      omega

-- The order in which the hash map yields its entries does not matter, and the
-- result is the greedy choice with the sum of its fees.
theorem selection_exact (keyed : Keyed c pool) (order : pool.Yields values) (now maxSize : UInt64) :
    (∀ other, pool.Yields other →
      pool.getTransactionsForBlock c other now maxSize = pool.getTransactionsForBlock c values now maxSize) ∧
    ∃ chosen, Selection c pool now maxSize chosen ∧
      (pool.getTransactionsForBlock c values now maxSize).1 = chosen.map MempoolEntry.transaction ∧
      (pool.getTransactionsForBlock c values now maxSize).2.toNat = min (weigh entryFee chosen) (2^64 - 1) := by
  constructor
  · intro other yields
    have same : other.Perm values := Multiset.coe_eq_coe.mp (yields.trans order.symm)
    have sort : sorted c other = sorted c values := sorted_unique (yields_distinct keyed yields) same
    exact congrArg (fun entries => pool.selectEntries now maxSize entries [] 0 0) sort
  · obtain ⟨chosen,picks,transactions,fees⟩ := selection_picks c pool values now maxSize
    exact ⟨chosen,picks_selection keyed order picks,transactions,fees⟩

theorem withEntry_yields (fresh : entry.transaction.txid c ∉ pool.transactions) (order : pool.Yields values) :
    (withEntry c pool entry).Yields (entry :: values) := FiniteMap.insert_yields fresh order

theorem withEntry_keyed (keyed : Keyed c pool) : Keyed c (withEntry c pool entry) := by
  intro k other stored
  rcases FiniteMap.lookup_insert_cases stored with ⟨rfl,rfl⟩ | ⟨_,before⟩
  · rfl
  · exact keyed k other before

def slowEntry : MempoolEntry := entryOf (createCoinbaseTransaction 1 5 [1]) 200 1777200000
def fastEntry : MempoolEntry := entryOf (createCoinbaseTransaction 2 5 [2]) 900 1777200030
def pairPool : Mempool := withEntry reference (withEntry reference (.new 100 1) slowEntry) fastEntry

theorem selection_exact_pair :
    (∀ other, pairPool.Yields other →
      pairPool.getTransactionsForBlock reference other 1777200060 1000000 =
        pairPool.getTransactionsForBlock reference [fastEntry,slowEntry] 1777200060 1000000) ∧
    ∃ chosen, Selection reference pairPool 1777200060 1000000 chosen ∧
      (pairPool.getTransactionsForBlock reference [fastEntry,slowEntry] 1777200060 1000000).1 =
        chosen.map MempoolEntry.transaction ∧
      (pairPool.getTransactionsForBlock reference [fastEntry,slowEntry] 1777200060 1000000).2.toNat =
        min (weigh entryFee chosen) (2^64 - 1) := by
  have empty : Keyed reference (.new 100 1) := fun _ _ absent => absurd absent (by simp [Mempool.new])
  have first : slowEntry.transaction.txid reference ∉ (Mempool.new 100 1).transactions := Finmap.notMem_empty
  have second : fastEntry.transaction.txid reference ∉
      (withEntry reference (.new 100 1) slowEntry).transactions := by decide +kernel
  exact selection_exact (withEntry_keyed (withEntry_keyed empty))
    (withEntry_yields second (withEntry_yields first rfl)) 1777200060 1000000

end BlindEye.BlockSelection
