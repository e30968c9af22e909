import BlindEye.LedgerRules

namespace BlindEye

structure ShieldedNote where
  commitment : Digest
  nullifier : Digest
  value : UInt64
  deriving DecidableEq

structure ShieldedTransfer where
  inputs : List ShieldedNote
  outputs : List ShieldedNote
  proof : List UInt8
  deriving DecidableEq

namespace Privacy

-- The loop over the inputs with the nullifiers it has seen.
def scanNullifiers (seen : Finset Digest) : List ShieldedNote → Answer
  | [] => .ok ()
  | note :: rest =>
    if note.nullifier ∈ seen then .error "Duplicate shielded nullifier detected"
    else scanNullifiers (insert note.nullifier seen) rest

-- The two sums wrap modulo 2^64, as u64 iterator sums do in a release build.
def validateShieldedTransfer (transfer : ShieldedTransfer) : Answer :=
  if transfer.proof.isEmpty then .error "Shielded transfers must include a proof"
  else if transfer.inputs.isEmpty || transfer.outputs.isEmpty then
    .error "Shielded transfers must have both inputs and outputs"
  else
    let inputValue := (transfer.inputs.map ShieldedNote.value).sum
    let outputValue := (transfer.outputs.map ShieldedNote.value).sum
    match scanNullifiers ∅ transfer.inputs with
    | .error text => .error text
    | .ok () =>
      if outputValue > inputValue then .error "Shielded outputs cannot exceed shielded inputs" else .ok ()

variable {notes : List ShieldedNote} {transfer : ShieldedTransfer}

theorem scanNullifiers_exact {seen : Finset Digest} : scanNullifiers seen notes = .ok () ↔
    (notes.map ShieldedNote.nullifier).Nodup ∧ ∀ note ∈ notes, note.nullifier ∉ seen := by
  induction notes generalizing seen with
  | nil => simp [scanNullifiers]
  | cons note rest ih =>
    by_cases known : note.nullifier ∈ seen
    · simp [scanNullifiers,known]
    · simp only [scanNullifiers,known,if_false,ih,Finset.mem_insert,not_or,List.map_cons,List.nodup_cons,List.mem_map,
        List.forall_mem_cons]
      constructor
      · intro scanned
        obtain ⟨distinct,fresh⟩ := scanned
        refine ⟨⟨?_,distinct⟩,not_false,fun other member => (fresh other member).2⟩
        intro ⟨other,member,same⟩
        exact (fresh other member).1 same
      · intro scanned
        obtain ⟨⟨once,distinct⟩,_,fresh⟩ := scanned
        exact ⟨distinct,fun other member => ⟨fun same => once ⟨other,member,same⟩,fresh other member⟩⟩

-- The value of some notes as an unbounded integer.
def worth (notes : List ShieldedNote) : Nat := (notes.map fun note => note.value.toNat).sum

theorem worth_wraps : (notes.map ShieldedNote.value).sum.toNat = worth notes % 2^64 := by
  rw [LedgerRules.sum_wraps,List.map_map]
  rfl

structure WellFormed (transfer : ShieldedTransfer) : Prop where
  proof : transfer.proof ≠ []
  inputs : transfer.inputs ≠ []
  outputs : transfer.outputs ≠ []
  distinct : (transfer.inputs.map ShieldedNote.nullifier).Nodup

-- What the code compares, and what it means to compare.
def Covered (transfer : ShieldedTransfer) : Prop := worth transfer.outputs % 2^64 ≤ worth transfer.inputs % 2^64

structure Balanced (transfer : ShieldedTransfer) : Prop extends WellFormed transfer where
  conserved : worth transfer.outputs ≤ worth transfer.inputs

theorem validateShieldedTransfer_exact :
    validateShieldedTransfer transfer = .ok () ↔ WellFormed transfer ∧ Covered transfer := by
  have compared : (transfer.outputs.map ShieldedNote.value).sum > (transfer.inputs.map ShieldedNote.value).sum ↔
      ¬ Covered transfer := by
    rw [gt_iff_lt,UInt64.lt_iff_toNat_lt,worth_wraps,worth_wraps,Covered,not_le]
  constructor
  · intro passed
    unfold validateShieldedTransfer at passed
    dsimp only at passed
    split at passed
    · cases passed
    · rename_i proof
      split at passed
      · cases passed
      · rename_i both
        simp only [Bool.or_eq_true,List.isEmpty_iff,not_or] at both
        split at passed
        · cases passed
        · rename_i scanned
          split at passed
          · cases passed
          · rename_i inside
            exact ⟨⟨by simpa using proof,both.1,both.2,(scanNullifiers_exact.mp scanned).1⟩,
              Classical.not_not.mp fun outside => inside (compared.mpr outside)⟩
  · intro checked
    obtain ⟨⟨proof,inputs,outputs,distinct⟩,covered⟩ := checked
    have scanned : scanNullifiers ∅ transfer.inputs = .ok () := scanNullifiers_exact.mpr ⟨distinct,by simp⟩
    have inside : ¬ (transfer.outputs.map ShieldedNote.value).sum > (transfer.inputs.map ShieldedNote.value).sum :=
      fun outside => compared.mp outside covered
    simp [validateShieldedTransfer,proof,inputs,outputs,scanned,inside]

-- The totals have as many whole 2^64s, or what is left over them compares as the
-- totals do.
def Comparable (transfer : ShieldedTransfer) : Prop :=
  let ins := worth transfer.inputs
  let outs := worth transfer.outputs
  outs / 2^64 = ins / 2^64 ∨ outs / 2^64 < ins / 2^64 ∧ outs % 2^64 ≤ ins % 2^64 ∨
    ins / 2^64 < outs / 2^64 ∧ ins % 2^64 < outs % 2^64

theorem covered_conserved : (Covered transfer ↔ worth transfer.outputs ≤ worth transfer.inputs) ↔
    Comparable transfer := by
  simp only [Covered,Comparable]
  omega

-- The check agrees with the rule exactly where an earlier check fails or the
-- totals compare as their remainders do.
theorem shielded_value_exact (transfer : ShieldedTransfer) :
    (validateShieldedTransfer transfer = .ok () ↔ Balanced transfer) ↔
      (WellFormed transfer → Comparable transfer) := by
  have balanced : Balanced transfer ↔ WellFormed transfer ∧ worth transfer.outputs ≤ worth transfer.inputs :=
    ⟨fun both => ⟨both.toWellFormed,both.conserved⟩,fun both => ⟨both.1,both.2⟩⟩
  rw [validateShieldedTransfer_exact,balanced,← covered_conserved]
  constructor
  · intro agree formed
    exact ⟨fun covered => (agree.mp ⟨formed,covered⟩).2,fun conserved => (agree.mpr ⟨formed,conserved⟩).2⟩
  · intro agree
    exact ⟨fun both => ⟨both.1,(agree both.1).mp both.2⟩,fun both => ⟨both.1,(agree both.1).mpr both.2⟩⟩

def note (serial : UInt8) (value : UInt64) : ShieldedNote :=
  ⟨.zero,⟨List.replicate 32 serial,by simp⟩,value⟩

-- One unit becomes 2^64.
def mintingTransfer : ShieldedTransfer := ⟨[note 1 1],[note 2 0x8000000000000000,note 3 0x8000000000000000],[1]⟩

theorem mintingTransfer_accepted : validateShieldedTransfer mintingTransfer = .ok () ∧ ¬ Balanced mintingTransfer ∧
    ¬ ∀ transfer, validateShieldedTransfer transfer = .ok () ↔ Balanced transfer := by
  have accepted : validateShieldedTransfer mintingTransfer = .ok () := by decide
  have minted : ¬ Balanced mintingTransfer := by
    intro balanced
    exact absurd balanced.conserved (by decide)
  exact ⟨accepted,minted,fun all => minted ((all _).mp accepted)⟩

end Privacy

end BlindEye
