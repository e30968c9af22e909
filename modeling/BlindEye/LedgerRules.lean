import BlindEye.Emission
import BlindEye.Ledger

namespace BlindEye.LedgerRules
open Emission

variable {c : Crates} {utxoSet after : UtxoSet} {tx : Transaction}

def coinValue (utxo : Utxo) : Nat := utxo.output.value.toNat
def coins (utxoSet : UtxoSet) : Nat := FiniteMap.total coinValue utxoSet
def inputTotal (utxoSet : UtxoSet) (tx : Transaction) : Nat :=
  (tx.spends.map (FiniteMap.valueAt coinValue utxoSet)).sum
def outputTotal (tx : Transaction) : Nat := (tx.outputs.map fun output => output.value.toNat).sum

-- The input names an unspent output and reveals the key that it is locked to.
def Spendable (c : Crates) (utxoSet : UtxoSet) (input : TxInput) : Prop :=
  ∃ utxo, utxoSet.lookup input.previousOutput = some utxo ∧
    addressFromScriptSig c input.scriptSig = some utxo.output.scriptPubkey

theorem sum_wraps (values : List UInt64) : values.sum.toNat = (values.map UInt64.toNat).sum % 2^64 := by
  induction values with
  | nil => rfl
  | cons value rest ih =>
    rw [List.sum_cons,List.map_cons,List.sum_cons,UInt64.toNat_add,ih]
    omega

theorem totalOutputValue_wraps (tx : Transaction) : tx.totalOutputValue.toNat = outputTotal tx % 2^64 := by
  rw [Transaction.totalOutputValue,sum_wraps,List.map_map]
  rfl

theorem addInput_exact : utxoSet.addInputValue c total input = .ok r ↔ Spendable c utxoSet input ∧
    r.toNat = total.toNat + FiniteMap.valueAt coinValue utxoSet input.previousOutput := by
  unfold UtxoSet.addInputValue Spendable FiniteMap.valueAt
  cases found : utxoSet.lookup input.previousOutput with
  | none => simp
  | some utxo =>
    cases owner : addressFromScriptSig c input.scriptSig with
    | none => simp
    | some claimed =>
      by_cases same : claimed = utxo.output.scriptPubkey
      · have fits := checkedAdd_exact (x := total) (y := utxo.output.value) (z := r)
        cases added : checkedAdd total utxo.output.value with
        | none => rw [added] at fits; simpa [same,added,coinValue] using fits
        | some sum => rw [added] at fits; simpa [same,added,coinValue] using fits
      · simp [same]

theorem addInputs_exact {inputs : List TxInput} : inputs.foldlM (utxoSet.addInputValue c) total = .ok r ↔
    (∀ input ∈ inputs, Spendable c utxoSet input) ∧
    r.toNat = total.toNat + ((inputs.map TxInput.previousOutput).map (FiniteMap.valueAt coinValue utxoSet)).sum := by
  induction inputs generalizing total with
  | nil =>
    rw [List.foldlM_nil]
    simp only [pure,Except.pure,Except.ok.injEq]
    simp [← UInt64.toNat_inj,eq_comm]
  | cons input rest ih =>
    rw [List.foldlM_cons,Fallible.bind_ok]
    simp only [List.forall_mem_cons,List.map_cons,List.sum_cons]
    constructor
    · intro ran
      obtain ⟨mid,step,later⟩ := ran
      obtain ⟨here,exact⟩ := addInput_exact.mp step
      obtain ⟨others,sum⟩ := ih.mp later
      exact ⟨⟨here,others⟩,by omega⟩
    · intro both
      obtain ⟨⟨here,others⟩,sum⟩ := both
      -- every partial sum is at most `r`, so it fits a u64
      have bound := r.toNat_lt
      obtain ⟨mid,exact⟩ : ∃ mid : UInt64, mid.toNat = total.toNat + FiniteMap.valueAt coinValue utxoSet input.previousOutput :=
        toNat_reaches (by omega)
      exact ⟨mid,addInput_exact.mpr ⟨here,exact⟩,ih.mpr ⟨others,by omega⟩⟩

theorem validateTransaction_exact : validateTransactionAgainstUtxoSet c tx utxoSet = .ok fee ↔
    tx.validate = .ok () ∧ (∀ input ∈ tx.inputs, Spendable c utxoSet input) ∧ inputTotal utxoSet tx < 2^64 ∧
    fee.toNat + tx.totalOutputValue.toNat = inputTotal utxoSet tx := by
  unfold validateTransactionAgainstUtxoSet
  rw [Fallible.bind_ok]
  constructor
  · intro paid
    obtain ⟨_,valid,rest⟩ := paid
    obtain ⟨total,summed,rest⟩ := Fallible.bind_ok.mp rest
    obtain ⟨spendable,exact⟩ := addInputs_exact.mp summed
    have exact : total.toNat = inputTotal utxoSet tx := by simpa [inputTotal,Transaction.spends] using exact
    split at rest
    · cases rest
    · rename_i covered
      cases rest
      have bound := total.toNat_lt
      have covered := UInt64.le_iff_toNat_le.mp (UInt64.not_lt.mp covered)
      rw [UInt64.toNat_sub_of_le _ _ (UInt64.le_iff_toNat_le.mpr covered)]
      exact ⟨valid,spendable,by omega,by omega⟩
  · intro checked
    obtain ⟨valid,spendable,fits,balance⟩ := checked
    have exact : (UInt64.ofNat (inputTotal utxoSet tx)).toNat = inputTotal utxoSet tx :=
      UInt64.toNat_ofNat_of_lt' fits
    refine ⟨(),valid,Fallible.bind_ok.mpr ⟨UInt64.ofNat (inputTotal utxoSet tx),?_,?_⟩⟩
    · exact addInputs_exact.mpr ⟨spendable,by rw [exact]; simp [inputTotal,Transaction.spends]⟩
    · have covered : tx.totalOutputValue ≤ UInt64.ofNat (inputTotal utxoSet tx) :=
        UInt64.le_iff_toNat_le.mpr (by omega)
      rw [if_neg (UInt64.not_lt.mpr covered),Except.ok.injEq,← UInt64.toNat_inj,
        UInt64.toNat_sub_of_le _ _ covered]
      omega

theorem paid_present (paid : validateTransactionAgainstUtxoSet c tx utxoSet = .ok fee) :
    tx.spends.Nodup ∧ ∀ o ∈ tx.spends, o ∈ utxoSet := by
  obtain ⟨valid,spendable,_⟩ := validateTransaction_exact.mp paid
  refine ⟨((Transaction.validate_exact _).mp valid).2.1,?_⟩
  intro o member
  obtain ⟨input,inside,rfl⟩ := List.mem_map.mp member
  obtain ⟨utxo,found,_⟩ := spendable input inside
  exact Finmap.mem_iff.mpr ⟨utxo,found⟩

theorem applyPayment_exact : applyPayment c height (utxoSet,fees) tx = .ok (after,sum) ↔ tx.inputs ≠ [] ∧
    (∃ fee, validateTransactionAgainstUtxoSet c tx utxoSet = .ok fee ∧ sum.toNat = fees.toNat + fee.toNat) ∧
    after = applyTransaction c tx utxoSet height := by
  unfold applyPayment
  by_cases coinbase : tx.inputs = []
  · simp [coinbase]
  · rw [if_neg (by simpa using coinbase),Fallible.bind_ok]
    constructor
    · intro ⟨fee,paid,rest⟩
      dsimp only at rest
      cases added : checkedAdd fees fee with
      | none => simp [added] at rest
      | some total =>
        simp only [added,Except.ok.injEq,Prod.mk.injEq] at rest
        obtain ⟨rfl,rfl⟩ := rest
        exact ⟨coinbase,⟨fee,paid,checkedAdd_exact.mp added⟩,rfl⟩
    · intro ⟨_,⟨fee,paid,exact⟩,equal⟩
      refine ⟨fee,paid,?_⟩
      simp only [checkedAdd_exact.mpr exact,equal]

theorem applyCoinbase_exact : applyCoinbase c height tx utxoSet = .ok after ↔ tx.inputs = [] ∧
    ((height ≠ 0 ∨ ∃ output ∈ tx.outputs, output.value ≠ 0) → tx.validate = .ok ()) ∧
    after = applyTransaction c tx utxoSet height := by
  unfold applyCoinbase
  by_cases coinbase : tx.inputs = []
  · rw [if_neg (by simpa using coinbase)]
    by_cases checked : height ≠ 0 ∨ ∃ output ∈ tx.outputs, output.value ≠ 0
    · rw [if_pos (by simpa using checked),Fallible.bind_ok]
      constructor
      · intro ⟨_,valid,equal⟩
        cases equal
        exact ⟨coinbase,fun _ => valid,rfl⟩
      · intro ⟨_,valid,equal⟩
        exact ⟨(),valid checked,by rw [equal]; rfl⟩
    · rw [if_neg (by simpa using checked)]
      simp [coinbase,checked,eq_comm]
  · simp [coinbase]

theorem validateBlockReward_exact : validateBlockReward height tx fees = .ok () ↔
    subsidy height + fees.toNat < 2^64 ∧ tx.totalOutputValue.toNat ≤ subsidy height + fees.toNat := by
  unfold validateBlockReward subsidy
  cases added : checkedAdd (Protocol.EmissionSchedule.default.blockReward height) fees with
  | none =>
    unfold checkedAdd at added
    split at added
    · cases added
    · rename_i overflow
      simp only [reduceCtorEq,false_iff]
      intro ⟨fits,_⟩
      exact overflow fits
  | some allowed =>
    have exact := checkedAdd_exact.mp added
    have bound := allowed.toNat_lt
    dsimp only
    by_cases covered : tx.totalOutputValue ≤ allowed
    · rw [if_neg (UInt64.not_lt.mpr covered)]
      simpa [← exact,bound] using UInt64.le_iff_toNat_le.mp covered
    · rw [if_pos (UInt64.not_le.mp covered)]
      simpa [← exact,bound] using UInt64.lt_iff_toNat_lt.mp (UInt64.not_le.mp covered)

theorem applyBlock_exact {block : Block} : applyBlockToUtxoSet c block utxoSet = .ok after ↔
    ∃ coinbase payments mid fees, block.transactions = coinbase :: payments ∧
      applyCoinbase c block.header.height coinbase utxoSet = .ok mid ∧
      payments.foldlM (applyPayment c block.header.height) (mid,0) = .ok (after,fees) ∧
      validateBlockReward block.header.height coinbase fees = .ok () := by
  unfold applyBlockToUtxoSet
  cases transactions : block.transactions with
  | nil => simp
  | cons coinbase payments =>
    simp only [Fallible.bind_ok,pure,Except.pure,Except.ok.injEq,List.cons.injEq]
    constructor
    · intro ⟨mid,first,⟨last,fees⟩,rest,_,reward,equal⟩
      dsimp only at reward equal
      subst equal
      exact ⟨coinbase,payments,mid,fees,⟨rfl,rfl⟩,first,rest,reward⟩
    · intro ⟨_,_,mid,fees,⟨rfl,rfl⟩,first,rest,reward⟩
      exact ⟨mid,first,(after,fees),rest,(),reward,rfl⟩

-- Two outputs of 2^63 units: the u64 sum is 0, so they fit every reward.
def wrappingCoinbase : Transaction := .new [] [⟨9223372036854775808,[1]⟩,⟨9223372036854775808,[1]⟩]

-- A block of one minting transaction within the subsidy applies to every ledger.
theorem minted_applies (c : Crates) (header : BlockHeader) (utxoSet : UtxoSet) (minted : tx.inputs = [])
    (valid : tx.validate = .ok ()) (within : tx.totalOutputValue.toNat ≤ subsidy header.height) :
    applyBlockToUtxoSet c ⟨header,[tx]⟩ utxoSet = .ok (applyTransaction c tx utxoSet header.height) := by
  have bound : subsidy header.height < 2^64 :=
    (Protocol.EmissionSchedule.default.blockReward header.height).toNat_lt
  have reward : validateBlockReward header.height tx 0 = .ok () :=
    validateBlockReward_exact.mpr ⟨by simpa using bound,by simpa using within⟩
  have coinbase : applyCoinbase c header.height tx utxoSet = .ok (applyTransaction c tx utxoSet header.height) :=
    applyCoinbase_exact.mpr ⟨minted,fun _ => valid,rfl⟩
  exact applyBlock_exact.mpr ⟨tx,[],_,0,rfl,coinbase,rfl,reward⟩

theorem wrapping_applies (c : Crates) (header : BlockHeader) (utxoSet : UtxoSet) :
    applyBlockToUtxoSet c ⟨header,[wrappingCoinbase]⟩ utxoSet =
      .ok (applyTransaction c wrappingCoinbase utxoSet header.height) := by
  have total : wrappingCoinbase.totalOutputValue = 0 := by decide
  apply minted_applies c header utxoSet rfl (by decide)
  rw [total]
  exact Nat.zero_le _

theorem created_sum (worth : TxOutput → Nat) (height : UInt64) :
    ((tx.created c height).map fun entry => worth entry.2.output).sum = (tx.outputs.map worth).sum := by
  have values : (tx.created c height).map (fun entry => worth entry.2.output) =
      (tx.outputs.zipIdx.map Prod.fst).map worth := by
    simp only [Transaction.created,List.map_map]
    rfl
  rw [values,List.zipIdx_map_fst]

theorem created_values (height : UInt64) :
    ((tx.created c height).map fun entry => coinValue entry.2).sum = outputTotal tx :=
  created_sum (fun output => output.value.toNat) height

-- A transaction never leaves more coins than it found, took and made. It may
-- leave fewer, since an insertion replaces what its outpoint held.
theorem coins_applyTransaction (c : Crates) (height : UInt64) (distinct : tx.spends.Nodup)
    (present : ∀ o ∈ tx.spends, o ∈ utxoSet) :
    coins (applyTransaction c tx utxoSet height) + inputTotal utxoSet tx ≤ coins utxoSet + outputTotal tx := by
  have erased := FiniteMap.total_eraseAll (f := coinValue) distinct present
  have added := FiniteMap.total_insertAll (f := coinValue) (m := FiniteMap.eraseAll utxoSet tx.spends)
    (tx.created c height)
  rw [created_values] at added
  unfold coins applyTransaction inputTotal
  omega

end BlindEye.LedgerRules
