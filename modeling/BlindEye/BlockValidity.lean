import BlindEye.CoinOrigin
import BlindEye.Reference

namespace BlindEye.BlockValidity
open LedgerRules Emission CoinOrigin FiniteMap

-- A ledger as the coin that stands under each outpoint.
abbrev View := OutPoint → Option Utxo

def View.worthAt (view : View) (o : OutPoint) : Nat := ((view o).map coinValue).getD 0
def View.spent (view : View) (tx : Transaction) : Nat := (tx.spends.map view.worthAt).sum

-- The inputs are gone, and output `i` stands under the txid and `i`.
def View.apply (c : Crates) (height : UInt64) (view : View) (tx : Transaction) : View := fun o =>
  if o.txid = tx.txid c ∧ o.vout.toNat < tx.outputs.length then
    tx.outputs[o.vout.toNat]?.map fun output => ⟨output,height,tx.inputs.isEmpty⟩
  else if o ∈ tx.spends then none
  else view o

-- `worth` is what the outputs of a transaction count for.
structure PaymentRule (worth : Transaction → Nat) (c : Crates) (view : View) (tx : Transaction) : Prop where
  spending : tx.inputs ≠ []
  distinct : tx.spends.Nodup
  paying : tx.outputs ≠ []
  positive : ∀ output ∈ tx.outputs, 0 < output.value
  owned : ∀ input ∈ tx.inputs, ∃ utxo, view input.previousOutput = some utxo ∧
    addressFromScriptSig c input.scriptSig = some utxo.output.scriptPubkey
  fits : view.spent tx < 2^64
  covered : worth tx ≤ view.spent tx

-- Payments in turn, with the fees that they leave.
inductive PaymentRules (worth : Transaction → Nat) (c : Crates) (height : UInt64) : View → List Transaction → Nat → Prop where
  | nil : PaymentRules worth c height view [] 0
  | cons {view : View} {fees : Nat} : PaymentRule worth c view tx →
      PaymentRules worth c height (view.apply c height tx) payments fees →
      PaymentRules worth c height view (tx :: payments) (view.spent tx - worth tx + fees)

structure CoinbaseRule (height : UInt64) (tx : Transaction) : Prop where
  minting : tx.inputs = []
  paying : (height = 0 ∧ ∀ output ∈ tx.outputs, output.value = 0) ∨
    (tx.outputs ≠ [] ∧ ∀ output ∈ tx.outputs, 0 < output.value)

-- The rules of a block, with sums that do not wrap except by way of `worth`.
def BlockRule (worth : Transaction → Nat) (c : Crates) (view : View) (block : Block) : Prop :=
  ∃ coinbase payments fees, block.transactions = coinbase :: payments ∧ CoinbaseRule block.header.height coinbase ∧
    PaymentRules worth c block.header.height (view.apply c block.header.height coinbase) payments fees ∧
    subsidy block.header.height + fees < 2^64 ∧ worth coinbase ≤ subsidy block.header.height + fees

def wrapped (tx : Transaction) : Nat := outputTotal tx % 2^64

-- `apply_block_to_utxo_set` accepts what the rules of exact arithmetic allow, and
-- leaves the ledger that they describe.
structure Agrees (c : Crates) (utxoSet : UtxoSet) (block : Block) : Prop where
  accepts : (∃ after, applyBlockToUtxoSet c block utxoSet = .ok after) ↔ BlockRule outputTotal c (utxoSet.lookup ·) block
  ledger : ∀ after, applyBlockToUtxoSet c block utxoSet = .ok after →
    (after.lookup ·) = block.transactions.foldl (View.apply c block.header.height) (utxoSet.lookup ·)

variable {c : Crates} {view : View} {utxoSet after : UtxoSet} {tx : Transaction} {block : Block}
  {payments : List Transaction} {worth : Transaction → Nat} {height fees collected : UInt64}

-- The entry that a transaction makes under an outpoint.
theorem created_lookup (few : tx.outputs.length < 2^32) (o : OutPoint) :
    (insertAll ∅ (tx.created c height)).lookup o = if o.txid = tx.txid c then
      tx.outputs[o.vout.toNat]?.map fun output => ⟨output,height,tx.inputs.isEmpty⟩ else none := by
  have numbered : ∀ i, i < tx.outputs.length → (UInt32.ofNat i).toNat = i := fun i inside =>
    UInt32.toNat_ofNat_of_lt' (Nat.lt_trans inside few)
  cases made : (insertAll ∅ (tx.created c height)).lookup o with
  | some utxo =>
    obtain ⟨⟨output,i⟩,member,equal⟩ := List.mem_map.mp (entry_of_insertAll made)
    have at_ := List.mem_zipIdx_iff_getElem?.mp member
    have inside := (List.getElem?_eq_some_iff.mp at_).1
    cases equal
    dsimp only
    rw [if_pos rfl,numbered i inside,at_]
    rfl
  | none =>
    have missing : o ∉ (tx.created c height).map Prod.fst := fun key =>
      Finmap.lookup_eq_none.mp made (mem_insertAll.mpr (.inr key))
    split
    · rename_i own
      cases at_ : tx.outputs[o.vout.toNat]? with
      | none => rfl
      | some output =>
        have key : o ∈ (tx.created c height).map Prod.fst := by
          have member : (output,o.vout.toNat) ∈ tx.outputs.zipIdx := List.mem_zipIdx_iff_getElem?.mpr at_
          refine List.mem_map.mpr ⟨_,List.mem_map_of_mem member,?_⟩
          change (⟨tx.txid c,UInt32.ofNat o.vout.toNat⟩ : OutPoint) = o
          rw [UInt32.ofNat_toNat,← own]
        exact absurd key missing
    · rfl

theorem apply_view (few : tx.outputs.length < 2^32) :
    ((applyTransaction c tx utxoSet height).lookup ·) = View.apply c height (utxoSet.lookup ·) tx := by
  funext o
  have kept : (eraseAll utxoSet tx.spends).lookup o = if o ∈ tx.spends then none else utxoSet.lookup o := by
    split
    · exact lookup_eraseAll_of_mem ‹_›
    · exact lookup_eraseAll_of_notMem ‹_›
  rw [applyTransaction,lookup_insertAll,created_lookup few,kept]
  unfold View.apply
  by_cases own : o.txid = tx.txid c
  · by_cases inside : o.vout.toNat < tx.outputs.length
    · simp [own,inside]
    · simp [own,inside]
  · simp [own]

theorem view_spent : View.spent (utxoSet.lookup ·) tx = inputTotal utxoSet tx := rfl

theorem validate_rule : tx.validate = .ok () ↔ tx.outputs ≠ [] ∧ tx.spends.Nodup ∧ ∀ output ∈ tx.outputs, 0 < output.value := by
  rw [Transaction.validate_exact]
  simp only [UInt64.pos_iff_ne_zero]

-- The mathematics of the u64 checks: the input sum is exact, the output sum is not.
theorem payment_rule : tx.inputs ≠ [] ∧ validateTransactionAgainstUtxoSet c tx utxoSet = .ok fee ↔
    PaymentRule wrapped c (utxoSet.lookup ·) tx ∧ fee.toNat = View.spent (utxoSet.lookup ·) tx - wrapped tx := by
  rw [validateTransaction_exact,validate_rule,totalOutputValue_wraps,view_spent]
  constructor
  · intro checked
    obtain ⟨spending,⟨paying,distinct,positive⟩,owned,fits,balance⟩ := checked
    have covered : wrapped tx ≤ inputTotal utxoSet tx := by unfold wrapped; omega
    exact ⟨⟨spending,distinct,paying,positive,owned,fits,covered⟩,by unfold wrapped; omega⟩
  · intro allowed
    obtain ⟨⟨spending,distinct,paying,positive,owned,fits,covered⟩,exact⟩ := allowed
    rw [view_spent] at covered fits
    exact ⟨spending,⟨paying,distinct,positive⟩,owned,fits,by unfold wrapped at *; omega⟩

theorem coinbase_rule : applyCoinbase c height tx utxoSet = .ok after ↔
    CoinbaseRule height tx ∧ after = applyTransaction c tx utxoSet height := by
  rw [applyCoinbase_exact,validate_rule]
  constructor
  · intro applied
    obtain ⟨minting,checked,equal⟩ := applied
    refine ⟨⟨minting,?_⟩,equal⟩
    by_cases free : height = 0 ∧ ∀ output ∈ tx.outputs, output.value = 0
    · exact .inl free
    · obtain ⟨paying,_,positive⟩ := checked (by by_contra none; push Not at none; exact free none)
      exact .inr ⟨paying,positive⟩
  · intro allowed
    obtain ⟨⟨minting,paying⟩,equal⟩ := allowed
    refine ⟨minting,?_,equal⟩
    intro checked
    rcases paying with ⟨start,worthless⟩ | ⟨paying,positive⟩
    · rcases checked with late | ⟨output,member,valuable⟩
      · exact absurd start late
      · exact absurd (worthless output member) valuable
    · exact ⟨paying,by simp [Transaction.spends,minting],positive⟩

-- The loop over the payments, with the two states that it carries.
theorem payments_rule (few : ∀ tx ∈ payments, tx.outputs.length < 2^32) :
    payments.foldlM (applyPayment c height) (utxoSet,fees) = .ok (after,collected) ↔
      ∃ sum, PaymentRules wrapped c height (utxoSet.lookup ·) payments sum ∧
        collected.toNat = fees.toNat + sum ∧ after = payments.foldl (fun m tx => applyTransaction c tx m height) utxoSet := by
  induction payments generalizing utxoSet fees with
  | nil =>
    rw [List.foldlM_nil]
    simp only [pure,Except.pure,Except.ok.injEq,Prod.mk.injEq,List.foldl_nil]
    constructor
    · intro same
      obtain ⟨rfl,rfl⟩ := same
      exact ⟨0,.nil,rfl,rfl⟩
    · intro allowed
      obtain ⟨sum,rules,exact,rfl⟩ := allowed
      cases rules
      exact ⟨rfl,UInt64.toNat_inj.mp exact.symm⟩
  | cons tx rest ih =>
    obtain ⟨here,later⟩ := List.forall_mem_cons.mp few
    rw [List.foldlM_cons,Fallible.bind_ok]
    constructor
    · intro ran
      obtain ⟨⟨mid,carried⟩,step,others⟩ := ran
      obtain ⟨spending,⟨fee,paid,exact⟩,rfl⟩ := applyPayment_exact.mp step
      obtain ⟨rule,left⟩ := payment_rule.mp ⟨spending,paid⟩
      obtain ⟨sum,rules,total,equal⟩ := (ih later).mp others
      rw [apply_view here] at rules
      exact ⟨_,.cons rule rules,by omega,equal⟩
    · intro allowed
      obtain ⟨sum,rules,total,equal⟩ := allowed
      cases rules with
      | @cons _ _ _ sum rule rules =>
        have bound := collected.toNat_lt
        have small : View.spent (utxoSet.lookup ·) tx - wrapped tx < 2^64 := by have := rule.fits; omega
        have fee : (UInt64.ofNat (View.spent (utxoSet.lookup ·) tx - wrapped tx)).toNat = _ := UInt64.toNat_ofNat_of_lt' small
        obtain ⟨spending,paid⟩ := payment_rule.mpr ⟨rule,fee⟩
        obtain ⟨carried,exact⟩ : ∃ carried : UInt64, carried.toNat =
            fees.toNat + (View.spent (utxoSet.lookup ·) tx - wrapped tx) := toNat_reaches (by omega)
        rw [← apply_view here] at rules
        refine ⟨(applyTransaction c tx utxoSet height,carried),?_,?_⟩
        · exact applyPayment_exact.mpr ⟨spending,⟨_,paid,by omega⟩,rfl⟩
        · exact (ih later).mpr ⟨sum,rules,by omega,equal⟩

theorem applyBlock_rule (few : ∀ tx ∈ block.transactions, tx.outputs.length < 2^32) :
    applyBlockToUtxoSet c block utxoSet = .ok after ↔ BlockRule wrapped c (utxoSet.lookup ·) block ∧
      after = block.transactions.foldl (fun m tx => applyTransaction c tx m block.header.height) utxoSet := by
  rw [applyBlock_exact]
  constructor
  · intro applied
    obtain ⟨coinbase,payments,mid,fees,split,first,rest,reward⟩ := applied
    rw [split] at few ⊢
    obtain ⟨here,later⟩ := List.forall_mem_cons.mp few
    obtain ⟨minting,rfl⟩ := coinbase_rule.mp first
    obtain ⟨sum,rules,total,equal⟩ := (payments_rule later).mp rest
    rw [apply_view here] at rules
    have total : fees.toNat = sum := by simpa using total
    obtain ⟨fits,covered⟩ := validateBlockReward_exact.mp reward
    rw [totalOutputValue_wraps,total] at covered
    exact ⟨⟨coinbase,payments,sum,split,minting,rules,total ▸ fits,covered⟩,equal⟩
  · intro allowed
    obtain ⟨⟨coinbase,payments,sum,split,minting,rules,fits,covered⟩,equal⟩ := allowed
    rw [split] at few equal
    obtain ⟨here,later⟩ := List.forall_mem_cons.mp few
    rw [← apply_view here] at rules
    have total : (UInt64.ofNat sum).toNat = sum := UInt64.toNat_ofNat_of_lt' (by rw [UInt64.size]; omega)
    refine ⟨coinbase,payments,_,UInt64.ofNat sum,split,coinbase_rule.mpr ⟨minting,rfl⟩,?_,?_⟩
    · exact (payments_rule later).mpr ⟨sum,rules,by rw [total]; exact (Nat.zero_add _).symm,equal⟩
    · rw [validateBlockReward_exact,totalOutputValue_wraps,total]
      exact ⟨fits,covered⟩

theorem fold_view {transactions : List Transaction} (few : ∀ tx ∈ transactions, tx.outputs.length < 2^32) :
    ((transactions.foldl (fun m tx => applyTransaction c tx m height) utxoSet).lookup ·) =
      transactions.foldl (View.apply c height) (utxoSet.lookup ·) := by
  induction transactions generalizing utxoSet with
  | nil => rfl
  | cons tx rest ih =>
    obtain ⟨here,later⟩ := List.forall_mem_cons.mp few
    rw [List.foldl_cons,List.foldl_cons,ih later,apply_view here]

theorem PaymentRules.congr {worth' : Transaction → Nat} (same : ∀ tx ∈ payments, worth tx = worth' tx)
    (rules : PaymentRules worth c height view payments sum) : PaymentRules worth' c height view payments sum := by
  induction rules with
  | nil => exact .nil
  | cons rule _ ih =>
    obtain ⟨here,later⟩ := List.forall_mem_cons.mp same
    rw [here]
    exact .cons { rule with covered := here ▸ rule.covered } (ih later)

theorem BlockRule.congr {worth' : Transaction → Nat} (same : ∀ tx ∈ block.transactions, worth tx = worth' tx)
    (rule : BlockRule worth c view block) : BlockRule worth' c view block := by
  obtain ⟨coinbase,payments,sum,split,minting,rules,fits,covered⟩ := rule
  rw [split] at same
  obtain ⟨here,later⟩ := List.forall_mem_cons.mp same
  exact ⟨coinbase,payments,sum,split,minting,rules.congr later,fits,here ▸ covered⟩

theorem PaymentRules.fits (rules : PaymentRules worth c height view payments sum) : ∀ tx ∈ payments, worth tx < 2^64 := by
  induction rules with
  | nil => intro tx member; cases member
  | cons rule _ ih => exact List.forall_mem_cons.mpr ⟨Nat.lt_of_le_of_lt rule.covered rule.fits,ih⟩

-- What the rules cover with a sum of inputs, or with the reward, fits a u64.
theorem BlockRule.fits (rule : BlockRule worth c view block) : ∀ tx ∈ block.transactions, worth tx < 2^64 := by
  obtain ⟨coinbase,payments,sum,split,_,rules,fits,covered⟩ := rule
  rw [split]
  exact List.forall_mem_cons.mpr ⟨Nat.lt_of_le_of_lt covered fits,rules.fits⟩

theorem wrapped_exact (fits : outputTotal tx < 2^64) : outputTotal tx = wrapped tx := (Nat.mod_eq_of_lt fits).symm

theorem exact_wrapped (rule : BlockRule outputTotal c view block) : BlockRule wrapped c view block :=
  rule.congr fun tx member => wrapped_exact (rule.fits tx member)

theorem application_exact (few : ∀ tx ∈ block.transactions, tx.outputs.length < 2^32) : Agrees c utxoSet block ↔
    (∀ tx ∈ block.transactions, outputTotal tx < 2^64) ∨ ¬ BlockRule wrapped c (utxoSet.lookup ·) block := by
  have runs : (∃ after, applyBlockToUtxoSet c block utxoSet = .ok after) ↔
      BlockRule wrapped c (utxoSet.lookup ·) block := by
    simp only [applyBlock_rule few,exists_and_left,exists_eq,and_true]
  constructor
  · intro agrees
    by_cases rule : BlockRule wrapped c (utxoSet.lookup ·) block
    · exact .inl (agrees.accepts.mp (runs.mpr rule)).fits
    · exact .inr rule
  · intro condition
    refine ⟨?_,?_⟩
    · rw [runs]
      refine ⟨?_,exact_wrapped⟩
      intro rule
      rcases condition with fits | refused
      · exact rule.congr fun tx member => (wrapped_exact (fits tx member)).symm
      · exact absurd rule refused
    · intro after applied
      obtain ⟨_,rfl⟩ := (applyBlock_rule few).mp applied
      exact fold_view few

-- The ledger in which the owner's reward is unspent.
def earnedLedger : UtxoSet := FiniteMap.insertAll ∅ (earnedCoinbase.created reference 1)

theorem application_exact_payBlock : (∀ tx ∈ payBlock.transactions, tx.outputs.length < 2^32) ∧
    (∃ after, applyBlockToUtxoSet reference payBlock earnedLedger = .ok after) ∧ Agrees reference earnedLedger payBlock := by
  have few : ∀ tx ∈ payBlock.transactions, tx.outputs.length < 2^32 := by decide +kernel
  have applied : (applyBlockToUtxoSet reference payBlock earnedLedger).toBool = true := by decide +kernel
  exact ⟨few,Fallible.toBool_ok.mp applied,(application_exact few).mpr (.inl (by decide +kernel))⟩

def wrappingBlock : Block := blockOn .zero 1 [wrappingCoinbase]

-- The only transaction makes 2^64 units, and the u64 sum of its outputs is 0.
theorem wrappingBlock_applies : (∀ tx ∈ wrappingBlock.transactions, tx.outputs.length < 2^32) ∧
    ¬ Agrees reference ∅ wrappingBlock := by
  refine ⟨by decide,?_⟩
  intro agrees
  have rule := agrees.accepts.mp ⟨_,wrapping_applies reference _ ∅⟩
  have fits := rule.fits wrappingCoinbase (List.mem_singleton_self _)
  exact absurd fits (by decide)

end BlindEye.BlockValidity
