import BlindEye.WalletSelection

namespace BlindEye.AddressSpelling
open LedgerRules WalletSelection

variable {c : Crates} {w : WalletCrates c} {wallet : Wallet c w} {s : Blockchain} {publicKey : c.PublicKey}
  {address recipient : String} {ch : Char} {chars : List Char} {bytes : List UInt8}

-- The 40 digits behind the mark.
def payload (address : String) : List Char := address.toList.drop 3

-- The bytes that a payment to this recipient is locked to.
def recipientScript (recipient : String) : List UInt8 := utf8Bytes recipient

-- The check of an input that reveals the key goes through, as far as the owner
-- is concerned: only the sum of the values can still stop it.
def Unlocks (c : Crates) (publicKey : c.PublicKey) (scriptPubkey : List UInt8) : Prop :=
  ∀ (utxoSet : UtxoSet) (input : TxInput) (utxo : Utxo) (total sum : UInt64),
    utxoSet.lookup input.previousOutput = some utxo → utxo.output.scriptPubkey = scriptPubkey →
    input.scriptSig = c.serialize publicKey → checkedAdd total utxo.output.value = some sum →
    utxoSet.addInputValue c total input = .ok sum

-- What the hex crate documents: digits of either case in, lower case out.
structure HexCrate (c : Crates) (w : WalletCrates c) : Prop where
  encode : ∀ bytes, c.hexEncode bytes = String.ofList (bytes.flatMap hexDigits)
  decode : ∀ text bytes, w.hexDecode text = .ok bytes ↔ hexPairs text.toList = .ok bytes

def hexDigit (n : Nat) : Char := if n < 10 then Char.ofNat (48 + n) else Char.ofNat (87 + n)

theorem hexDigits_pair (b : UInt8) : hexDigits b = [hexDigit (b.toNat / 16),hexDigit (b.toNat % 16)] := rfl

-- A digit that is read is the one that would be written, unless it is upper case.
theorem hexValue_digit (read : hexValue ch = some v) : v.toNat < 16 ∧ (hexDigit v.toNat = ch ↔ ch.isUpper = false) := by
  have upper : ch.isUpper = true ↔ 65 ≤ ch.toNat ∧ ch.toNat ≤ 90 := by
    simp only [Char.isUpper,decide_eq_true_eq,ge_iff_le,UInt32.le_iff_toNat_le]
    rfl
  have written : ∀ n, n = ch.toNat → Char.ofNat n = ch := by
    intro n equal
    rw [equal,Char.ofNat_toNat]
  rw [Bool.eq_false_iff,ne_eq,upper]
  unfold hexValue at read
  dsimp only at read
  split at read
  · cases read
    rw [UInt8.toNat_ofNat_of_lt' (by rw [UInt8.size]; omega),hexDigit,if_pos (by omega),written _ (by omega)]
    exact ⟨by omega,iff_of_true rfl (by omega)⟩
  · split at read
    · cases read
      rw [UInt8.toNat_ofNat_of_lt' (by rw [UInt8.size]; omega),hexDigit,if_neg (by omega),written _ (by omega)]
      exact ⟨by omega,iff_of_true rfl (by omega)⟩
    · split at read
      · rename_i range
        cases read
        rw [UInt8.toNat_ofNat_of_lt' (by rw [UInt8.size]; omega),hexDigit,if_neg (by omega)]
        refine ⟨by omega,iff_of_false ?_ (by omega)⟩
        intro same
        have code := congrArg Char.toNat same
        rw [Char.toNat_ofNat,if_pos (.inl (by omega))] at code
        omega
      · cases read

theorem hexPairs_lower (read : hexPairs chars = .ok bytes) :
    bytes.flatMap hexDigits = chars ↔ ∀ ch ∈ chars, ch.isUpper = false := by
  induction chars using hexPairs.induct generalizing bytes with
  | case1 =>
    cases read
    simp
  | case2 => cases read
  | case3 first second rest high low high' low' ih =>
    simp only [hexPairs,high',low'] at read
    obtain ⟨later,decoded,rfl⟩ := Fallible.map_ok.mp read
    obtain ⟨small,first'⟩ := hexValue_digit high'
    obtain ⟨small',second'⟩ := hexValue_digit low'
    have sum : (high * 16 + low).toNat = high.toNat * 16 + low.toNat := by
      rw [UInt8.toNat_add,UInt8.toNat_mul]
      change (high.toNat * 16 % 256 + low.toNat) % 256 = _
      omega
    have quotient : (high.toNat * 16 + low.toNat) / 16 = high.toNat := by omega
    have rest' : (high.toNat * 16 + low.toNat) % 16 = low.toNat := by omega
    rw [List.flatMap_cons,hexDigits_pair,sum,quotient,rest']
    simp only [List.cons_append,List.nil_append,List.cons.injEq,List.forall_mem_cons,first',second',ih decoded]
  | case4 first second rest invalid =>
    unfold hexPairs at read
    split at read
    · rename_i high low
      exact (invalid _ _ high low).elim
    · cases read

theorem utf8Bytes_injective (equal : utf8Bytes address = utf8Bytes recipient) : address = recipient := by
  have read : String.fromUTF8? ⟨(utf8Bytes address).toArray⟩ = some address := utf8Bytes_text
  rw [equal,utf8Bytes_text] at read
  exact (Option.some.inj read).symm

-- The text that every accepted address has.
theorem validateAddress_text (valid : Wallet.validateAddress w address = true) :
    address = "BEC" ++ String.ofList (payload address) := by
  unfold Wallet.validateAddress at valid
  split at valid
  · cases valid
  · rename_i marked
    have marked := Classical.not_not.mp marked
    apply String.toList_inj.mp
    obtain ⟨rest,same⟩ := marked
    simp only [String.toList_append,String.toList_ofList,payload,← same]
    rfl

theorem unlocks_exact (undoes : c.fromSlice (c.serialize publicKey) = some publicKey) :
    Unlocks c publicKey (recipientScript recipient) ↔ addressFromPublicKey c publicKey = recipient := by
  have owner : addressFromScriptSig c (c.serialize publicKey) = some (utf8Bytes (addressFromPublicKey c publicKey)) := by
    rw [addressFromScriptSig,undoes]
    rfl
  constructor
  · intro unlocks
    have summed := unlocks ((∅ : UtxoSet).insert ⟨.zero,0⟩ ⟨⟨1,recipientScript recipient⟩,0,false⟩)
      ⟨⟨.zero,0⟩,c.serialize publicKey,0⟩ _ 0 1 (Finmap.lookup_insert _) rfl rfl (checkedAdd_exact.mpr rfl)
    obtain ⟨⟨utxo,found,revealed⟩,_⟩ := addInput_exact.mp summed
    cases Option.some.inj ((Finmap.lookup_insert _).symm.trans found)
    exact utf8Bytes_injective (Option.some.inj (owner.symm.trans revealed))
  · intro same utxoSet input utxo total sum found locked reveals added
    refine addInput_exact.mpr ⟨⟨utxo,found,?_⟩,?_⟩
    · rw [reveals,owner,locked,same]
      rfl
    · rw [FiniteMap.valueAt,found]
      exact checkedAdd_exact.mp added

theorem address_unlocks_exact (undoes : ∀ key, c.fromSlice (c.serialize key) = some key) (hex : HexCrate c w)
    (valid : Wallet.validateAddress w address = true)
    (names : w.hexDecode (String.ofList (payload address)) = .ok ((c.blake3 (c.serialize publicKey)).bytes.take 20)) :
    Unlocks c publicKey (recipientScript address) ↔ ∀ ch ∈ payload address, ch.isUpper = false := by
  have read := (hex.decode _ _).mp names
  rw [String.toList_ofList] at read
  rw [unlocks_exact (undoes publicKey),← hexPairs_lower read,addressFromPublicKey,hex.encode]
  have text := validateAddress_text valid
  constructor
  · intro same
    have equal := congrArg String.toList (same.trans text)
    simp only [String.toList_append,String.toList_ofList] at equal
    exact List.append_cancel_left equal
  · intro same
    rw [same]
    exact text.symm

theorem referenceHex : HexCrate reference referenceWallet := ⟨fun _ => rfl,fun _ _ => Iff.rfl⟩

def spokenAddress : String := "BEC1a15d6547364ad963c3b840e885639bb8136a4de"
def shoutedAddress : String := "BEC1A15D6547364AD963C3B840E885639BB8136A4DE"

theorem spoken_names : Wallet.validateAddress referenceWallet spokenAddress = true ∧
    referenceWallet.hexDecode (String.ofList (payload spokenAddress)) =
      .ok ((reference.blake3 (reference.serialize ())).bytes.take 20) := by decide +kernel

theorem spoken_lower : ∀ ch ∈ payload spokenAddress, ch.isUpper = false := by
  have checked : (payload spokenAddress).all (fun ch => !ch.isUpper) = true := by decide +kernel
  intro ch member
  simpa using List.all_eq_true.mp checked ch member

theorem address_unlocks_exact_spoken : Unlocks reference () (recipientScript spokenAddress) :=
  (address_unlocks_exact (fun _ => rfl) referenceHex spoken_names.1 spoken_names.2).mpr spoken_lower

-- The same key hash in capitals: the payment is built, and its output belongs to nobody.
theorem shouted_lost : Wallet.validateAddress referenceWallet shoutedAddress = true ∧
    referenceWallet.hexDecode (String.ofList (payload shoutedAddress)) =
      .ok ((reference.blake3 (reference.serialize ())).bytes.take 20) ∧
    ¬ Unlocks reference () (recipientScript shoutedAddress) := by
  refine ⟨by decide +kernel,by decide +kernel,?_⟩
  intro unlocks
  have same : addressFromPublicKey reference () = shoutedAddress := (unlocks_exact rfl).mp unlocks
  exact absurd same (by decide +kernel)

end BlindEye.AddressSpelling
