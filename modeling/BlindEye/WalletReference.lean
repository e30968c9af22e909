import BlindEye.Reference
import BlindEye.Wallet

namespace BlindEye

def hexValue (ch : Char) : Option UInt8 :=
  let n := ch.toNat
  if 48 ≤ n ∧ n ≤ 57 then some (UInt8.ofNat (n - 48))
  else if 97 ≤ n ∧ n ≤ 102 then some (UInt8.ofNat (n - 87))
  else if 65 ≤ n ∧ n ≤ 70 then some (UInt8.ofNat (n - 55))
  else none

def hexPairs : List Char → Except String (List UInt8)
  | [] => .ok []
  | [_] => .error "Odd number of digits"
  | high :: low :: rest =>
    match hexValue high,hexValue low with
    | some high,some low => (hexPairs rest).map fun bytes => (high * 16 + low) :: bytes
    | _,_ => .error "Invalid character"

theorem hexPairs_digits (b : UInt8) (rest : List Char) :
    hexPairs (hexDigits b ++ rest) = (hexPairs rest).map fun bytes => b :: bytes := by
  have values : ∀ n : Fin 256, (hexDigits (UInt8.ofNat n)).map hexValue =
      [some (UInt8.ofNat (n / 16)),some (UInt8.ofNat (n % 16))] ∧
        UInt8.ofNat (n / 16) * 16 + UInt8.ofNat (n % 16) = UInt8.ofNat n := by decide +kernel
  obtain ⟨digits,sum⟩ := values ⟨b.toNat,b.toNat_lt⟩
  rw [UInt8.ofNat_toNat] at digits sum
  obtain ⟨high,low,same⟩ : ∃ high low, hexDigits b = [high,low] := ⟨_,_,rfl⟩
  rw [same] at digits
  simp only [List.map_cons,List.map_nil,List.cons.injEq,and_true] at digits
  simp only [same,List.cons_append,List.nil_append,hexPairs,digits.1,digits.2,sum]

theorem hexPairs_encode (bytes : List UInt8) : hexPairs (bytes.flatMap hexDigits) = .ok bytes := by
  induction bytes with
  | nil => rfl
  | cons b rest ih => rw [List.flatMap_cons,hexPairs_digits,ih]; rfl

-- A field of a backup as marked characters behind which a dot stands.
def writeField (field : String) : List Char := field.toList.flatMap (fun ch => ['+',ch]) ++ ['.']

def readField : List Char → Option (String × List Char)
  | '.' :: rest => some ("",rest)
  | '+' :: ch :: rest => (readField rest).map fun (field,rest) => (String.ofList (ch :: field.toList),rest)
  | _ => none

theorem readField_write (field : String) (rest : List Char) :
    readField (writeField field ++ rest) = some (field,rest) := by
  have general : ∀ chars : List Char, readField (chars.flatMap (fun ch => ['+',ch]) ++ '.' :: rest) =
      some (String.ofList chars,rest) := by
    intro chars
    induction chars with
    | nil => rfl
    | cons ch chars ih => simp [readField,ih]
  have whole := general field.toList
  simpa [writeField] using whole

def writeBackup (backup : WalletBackup) : String :=
  String.ofList (writeField backup.address ++ (writeField backup.publicKeyHex ++
    (writeField backup.encryptedMnemonic ++ (writeField backup.salt ++ writeField backup.nonce))))

def readBackup (contents : String) : Option WalletBackup := do
  let (address,rest) ← readField contents.toList
  let (publicKeyHex,rest) ← readField rest
  let (encryptedMnemonic,rest) ← readField rest
  let (salt,rest) ← readField rest
  let (nonce,_) ← readField rest
  return ⟨3,address,publicKeyHex,encryptedMnemonic,salt,nonce⟩

theorem readBackup_write {backup : WalletBackup} (version : backup.version = 3) :
    readBackup (writeBackup backup) = some backup := by
  have last := readField_write backup.nonce []
  rw [List.append_nil] at last
  unfold readBackup writeBackup
  rw [String.toList_ofList]
  simp only [readField_write,last,Option.bind_eq_bind,Option.bind_some,← version]
  rfl

-- A phrase whose words stand apart by one space each.
def Spaced (phrase : String) : Prop := " ".intercalate (splitWhitespace phrase) = phrase

instance : Decidable (Spaced phrase) := inferInstanceAs (Decidable (_ = _))

theorem digits_spaced (bytes : List UInt8) : Spaced (String.ofList (bytes.flatMap hexDigits)) := by
  have each : ∀ n < 16, isWhiteSpace (if n < 10 then Char.ofNat (48 + n) else Char.ofNat (87 + n)) = false := by decide
  have solid : ∀ ch ∈ bytes.flatMap hexDigits, isWhiteSpace ch = false := by
    intro ch member
    obtain ⟨b,_,inside⟩ := List.mem_flatMap.mp member
    have byte := b.toNat_lt
    rcases List.mem_pair.mp inside with rfl | rfl
    · exact each _ (by omega)
    · exact each _ (by omega)
  rw [Spaced,splitWhitespace,String.toList_ofList,List.splitOnP_eq_singleton solid]
  cases bytes with
  | nil => rfl
  | cons b rest => simp [hexDigits]

-- The wallet's crates on concrete inputs: hex, a seed phrase of spaced words for a
-- mnemonic, the generator's key for every secret, a password padded to a key, and a
-- seal that carries its key.
def referenceWallet : WalletCrates reference where
  SecretKey := Unit
  secretFromSlice _ := some ()
  publicFromSecret _ := ()
  Mnemonic := { phrase : String // Spaced phrase }
  fromEntropy entropy := some ⟨_,digits_spaced entropy⟩
  parseInNormalized phrase := if spaced : Spaced phrase then .ok ⟨phrase,spaced⟩ else .error "unknown word"
  mnemonicText mnemonic := mnemonic.val
  toSeed mnemonic := utf8Bytes mnemonic.val
  hexDecode text := hexPairs text.toList
  hashPassword password _ := .ok ((password ++ List.replicate 32 0).take 32)
  encrypt key _ plaintext := .ok (key ++ plaintext)
  decrypt key _ ciphertext := if key <+: ciphertext then .ok (ciphertext.drop key.length) else .error "aead::Error"
  utf8Error _ := "invalid utf-8 sequence"
  toJson backup := if backup.version = 3 then .ok (writeBackup backup) else .error "unknown version"
  fromJson contents := match readBackup contents with
    | some backup => .ok backup
    | none => .error "expected value"

theorem reference_reads (mnemonic : referenceWallet.Mnemonic) :
    referenceWallet.parseInNormalized (" ".intercalate (splitWhitespace (referenceWallet.mnemonicText mnemonic))) =
      .ok mnemonic := by
  obtain ⟨phrase,spaced⟩ := mnemonic
  have words : " ".intercalate (splitWhitespace (referenceWallet.mnemonicText ⟨phrase,spaced⟩)) = phrase := spaced
  rw [words]
  exact dif_pos spaced

def generatorWallet : Wallet reference referenceWallet :=
  ⟨"",(),(),addressFromPublicKey reference (),0,[]⟩

end BlindEye
