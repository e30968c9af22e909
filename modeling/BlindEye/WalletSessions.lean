import BlindEye.WalletApp
import BlindEye.WalletReference
import BlindEye.Library.Fallible

namespace BlindEye.WalletSessions

variable {c : Crates} {w : WalletCrates c} {wallet : Wallet c w} {contents after password wrong mnemonic text : String}
  {draws : SealDraws} {session : Session} {sessions : List Session}

def Decrypts (w : WalletCrates c) (contents password mnemonic : String) : Prop :=
  ∃ backup, w.fromJson contents = .ok backup ∧
    Wallet.decryptMnemonic w backup.encryptedMnemonic backup.salt backup.nonce password = .ok mnemonic

-- The mnemonic is spelt as its wallet spells it, and the two plain fields of the file
-- are those of that wallet.
def Belongs (w : WalletCrates c) (contents mnemonic : String) : Prop :=
  ∃ backup wallet, w.fromJson contents = .ok backup ∧ Wallet.fromMnemonic w mnemonic = some (.ok wallet) ∧
    wallet.mnemonic = mnemonic ∧ wallet.address = backup.address ∧
    c.hexEncode (c.serialize wallet.publicKey) = backup.publicKeyHex

-- A file that the wallet loads under the password.
structure Protects (w : WalletCrates c) (contents password mnemonic : String) : Prop where
  decrypts : Decrypts w contents password mnemonic
  loads : ∃ wallet, Wallet.loadFromFile w contents password = some (.ok wallet) ∧ wallet.mnemonic = mnemonic

-- What the crates promise of a password: hex and JSON undo themselves, hashing
-- the password with a salt of 16 bytes and encrypting a phrase succeed, some
-- candidate is a secret key, 16 bytes make a mnemonic, and the words of a mnemonic are
-- read back as that mnemonic.
structure Promised (w : WalletCrates c) (password : String) : Prop where
  hex : ∀ bytes, w.hexDecode (c.hexEncode bytes) = .ok bytes
  json : ∀ backup, backup.version = 3 → ∃ text, w.toJson backup = .ok text ∧ w.fromJson text = .ok backup
  hashed : ∀ salt, salt.length = 16 → ∃ key, w.hashPassword (utf8Bytes password) salt = .ok key
  encrypted : ∀ salt nonce key, salt.length = 16 → nonce.length = 12 →
    w.hashPassword (utf8Bytes password) salt = .ok key →
    ∀ parsed, ∃ ciphertext, w.encrypt key nonce (utf8Bytes (w.mnemonicText parsed)) = .ok ciphertext
  derived : ∀ parsed, ∃ counter < 2^32 - 1,
    (w.secretFromSlice (c.blake3 (w.toSeed parsed ++ u32Bytes (UInt32.ofNat counter))).bytes).isSome
  generated : ∀ entropy : WalletEntropy, ∃ generated, w.fromEntropy entropy.bytes = some generated
  reads : ∀ parsed, w.parseInNormalized (" ".intercalate (splitWhitespace (w.mnemonicText parsed))) = .ok parsed

-- The authenticated decryption of what was encrypted under a password.
def OpensUnder (w : WalletCrates c) (password : String) : Prop :=
  ∀ salt nonce key text ciphertext, w.hashPassword (utf8Bytes password) salt = .ok key →
    w.encrypt key nonce text = .ok ciphertext → w.decrypt key nonce ciphertext = .ok text

def FailsUnder (w : WalletCrates c) (password wrong : String) : Prop :=
  ∀ salt nonce key other text ciphertext, w.hashPassword (utf8Bytes password) salt = .ok key →
    w.hashPassword (utf8Bytes wrong) salt = .ok other → w.encrypt key nonce text = .ok ciphertext →
      ∃ e, w.decrypt other nonce ciphertext = .error e

theorem deriveFrom_finds {seed : List UInt8} (low : n ≤ rounds)
    (found : (w.secretFromSlice (c.blake3 (seed ++ u32Bytes (first + UInt32.ofNat n))).bytes).isSome) :
    (Wallet.deriveFrom w seed (rounds + 1) first).isSome := by
  induction n generalizing rounds first with
  | zero =>
    obtain ⟨secret,accepted⟩ := Option.isSome_iff_exists.mp found
    have here : first + UInt32.ofNat 0 = first := UInt32.add_zero first
    rw [here] at accepted
    simp [Wallet.deriveFrom,accepted]
  | succ n ih =>
    unfold Wallet.deriveFrom
    cases accepted : w.secretFromSlice (c.blake3 (seed ++ u32Bytes first)).bytes with
    | some secret => rfl
    | none =>
      obtain ⟨more,rfl⟩ := Nat.exists_eq_add_of_le' (Nat.le_trans (Nat.le_add_left 1 n) low)
      have next : first + UInt32.ofNat (n + 1) = first + 1 + UInt32.ofNat n := by
        rw [UInt32.ofNat_add,UInt32.add_comm (UInt32.ofNat n),← UInt32.add_assoc]
        rfl
      apply ih (Nat.le_of_succ_le_succ low)
      rw [← next]
      exact found

theorem deriveSecretKey_finds (promised : Promised w password) (parsed : w.Mnemonic) :
    ∃ secret, Wallet.deriveSecretKey w parsed = some secret := by
  obtain ⟨counter,low,found⟩ := promised.derived parsed
  apply Option.isSome_iff_exists.mp
  have rounds : (2^32 - 1 : Nat) = (2^32 - 2) + 1 := rfl
  unfold Wallet.deriveSecretKey
  rw [rounds]
  apply deriveFrom_finds (Nat.le_of_lt_succ low)
  rw [UInt32.zero_add]
  exact found

theorem fromMnemonic_parts (made : Wallet.fromMnemonic w text = some (.ok wallet)) :
    ∃ parsed, wallet.mnemonic = w.mnemonicText parsed := by
  unfold Wallet.fromMnemonic at made
  dsimp only at made
  split at made
  · cases made
  · obtain ⟨secret,_,equal⟩ := Option.map_eq_some_iff.mp made
    cases equal
    exact ⟨_,rfl⟩

-- A wallet is what its own phrase gives again.
theorem fromMnemonic_again (promised : Promised w password) (made : Wallet.fromMnemonic w text = some (.ok wallet)) :
    Wallet.fromMnemonic w wallet.mnemonic = some (.ok wallet) := by
  unfold Wallet.fromMnemonic at made
  dsimp only at made
  split at made
  · cases made
  · rename_i parsed _
    obtain ⟨secret,derived,equal⟩ := Option.map_eq_some_iff.mp made
    cases equal
    simp only [Wallet.fromMnemonic,promised.reads,derived,Option.map_some]

theorem fromMnemonic_answers (promised : Promised w password) (text : String) :
    ∃ answer, Wallet.fromMnemonic w text = some answer := by
  unfold Wallet.fromMnemonic
  dsimp only
  split
  · exact ⟨_,rfl⟩
  · rename_i parsed _
    obtain ⟨secret,derived⟩ := deriveSecretKey_finds promised parsed
    rw [derived]
    exact ⟨_,rfl⟩

theorem new_made (promised : Promised w password) (entropy : WalletEntropy) :
    ∃ wallet, Wallet.new w entropy.bytes = some wallet ∧ Wallet.fromMnemonic w wallet.mnemonic = some (.ok wallet) := by
  obtain ⟨generated,phrase⟩ := promised.generated entropy
  obtain ⟨secret,derived⟩ := deriveSecretKey_finds promised generated
  refine ⟨⟨w.mnemonicText generated,secret,w.publicFromSecret secret,
    addressFromPublicKey c (w.publicFromSecret secret),0,[]⟩,?_,?_⟩
  · simp only [Wallet.new,phrase,Wallet.fromMnemonic,promised.reads,derived,Option.map_some]
  · simp only [Wallet.fromMnemonic,promised.reads,derived,Option.map_some]

-- What a save under the password leaves in the file.
structure SealedAs (w : WalletCrates c) (wallet : Wallet c w) (password contents : String)
    (salt nonce key ciphertext : List UInt8) : Prop where
  saltLength : salt.length = 16
  nonceLength : nonce.length = 12
  hashed : w.hashPassword (utf8Bytes password) salt = .ok key
  encrypted : w.encrypt key nonce (utf8Bytes wallet.mnemonic) = .ok ciphertext
  stored : w.fromJson contents = .ok ⟨3,wallet.address,c.hexEncode (c.serialize wallet.publicKey),
    c.hexEncode ciphertext,c.hexEncode salt,c.hexEncode nonce⟩

def Sealed (w : WalletCrates c) (wallet : Wallet c w) (password contents : String) : Prop :=
  ∃ salt nonce key ciphertext, SealedAs w wallet password contents salt nonce key ciphertext

theorem writeTo_sealed (promised : Promised w password) (genuine : wallet.mnemonic = w.mnemonicText parsed)
    (file : StateFile) (draws : SealDraws) :
    ∃ json, wallet.writeTo file password draws = (some json,.ok ()) ∧ Sealed w wallet password json := by
  obtain ⟨key,hashed⟩ := promised.hashed draws.salt draws.saltLength
  obtain ⟨ciphertext,encrypted⟩ := promised.encrypted _ _ key draws.saltLength draws.nonceLength hashed parsed
  rw [← genuine] at encrypted
  obtain ⟨json,written,stored⟩ := promised.json ⟨3,wallet.address,c.hexEncode (c.serialize wallet.publicKey),
    c.hexEncode ciphertext,c.hexEncode draws.salt,c.hexEncode draws.nonce⟩ rfl
  refine ⟨json,?_,_,_,key,ciphertext,draws.saltLength,draws.nonceLength,hashed,encrypted,stored⟩
  simp only [Wallet.writeTo,Wallet.saveToFile,Wallet.toBackup,Wallet.encryptMnemonic,hashed,encrypted,Except.map,written]

theorem sealed_decrypts (promised : Promised w password) (opens : OpensUnder w password)
    (parts : SealedAs w wallet password contents salt nonce key ciphertext) :
    Wallet.decryptMnemonic w (c.hexEncode ciphertext) (c.hexEncode salt) (c.hexEncode nonce) password =
      .ok wallet.mnemonic := by
  have opened := opens _ _ _ _ _ parts.hashed parts.encrypted
  simp only [Wallet.decryptMnemonic,promised.hex,parts.saltLength,parts.nonceLength,parts.hashed,opened,utf8Bytes_text]
  simp

-- Under a wrong password the sealed file is lost.
theorem sealed_shut (promised : Promised w password) (fails : FailsUnder w password wrong)
    (sealedFile : Sealed w wallet password contents) : ¬ Decrypts w contents wrong mnemonic := by
  intro decrypts
  obtain ⟨salt,nonce,key,ciphertext,parts⟩ := sealedFile
  obtain ⟨backup,stored,opened⟩ := decrypts
  rw [parts.stored] at stored
  cases stored
  simp only [Wallet.decryptMnemonic,promised.hex,parts.saltLength,parts.nonceLength] at opened
  cases hashed : w.hashPassword (utf8Bytes wrong) salt with
  | error e => simp [hashed] at opened
  | ok other =>
    obtain ⟨e,failed⟩ := fails _ nonce _ _ _ _ parts.hashed hashed parts.encrypted
    simp [hashed,failed] at opened

theorem sealed_protects (promised : Promised w password) (opens : OpensUnder w password)
    (again : Wallet.fromMnemonic w wallet.mnemonic = some (.ok first)) (phrase : first.mnemonic = wallet.mnemonic)
    (address : first.address = wallet.address) (key : first.publicKey = wallet.publicKey)
    (sealedFile : Sealed w wallet password contents) : Protects w contents password wallet.mnemonic := by
  obtain ⟨salt,nonce,_,ciphertext,parts⟩ := sealedFile
  have decrypted := sealed_decrypts promised opens parts
  refine ⟨⟨_,parts.stored,decrypted⟩,first,?_,phrase⟩
  simp [Wallet.loadFromFile,parts.stored,decrypted,again,address,key]

-- The wallet that a loaded file gives is the one that its phrase gives.
theorem loaded_parts (loaded : Wallet.loadFromFile w contents password = some (.ok wallet)) :
    ∃ text, Decrypts w contents password text ∧ Wallet.fromMnemonic w text = some (.ok wallet) := by
  unfold Wallet.loadFromFile at loaded
  split at loaded
  · cases loaded
  · rename_i backup stored
    split at loaded
    · cases loaded
    · rename_i text opened
      obtain ⟨answer,made,equal⟩ := Option.map_eq_some_iff.mp loaded
      cases answer with
      | error text => cases equal
      | ok made' =>
        dsimp only at equal
        split at equal
        · cases equal
        · split at equal
          · cases equal
          · cases equal
            exact ⟨text,⟨backup,stored,opened⟩,made⟩

theorem decrypts_unique (first : Decrypts w contents password text) (second : Decrypts w contents password mnemonic) :
    text = mnemonic := by
  obtain ⟨backup,stored,opened⟩ := first
  obtain ⟨_,stored',opened'⟩ := second
  rw [stored] at stored'
  cases stored'
  rw [opened] at opened'
  exact Except.ok.inj opened'

-- A file belongs to the mnemonic behind its seal exactly when the wallet loads it.
theorem belongs_exact (decrypts : Decrypts w contents password mnemonic) : Belongs w contents mnemonic ↔
    ∃ wallet, Wallet.loadFromFile w contents password = some (.ok wallet) ∧ wallet.mnemonic = mnemonic := by
  constructor
  · intro belongs
    obtain ⟨backup,stored,opened⟩ := decrypts
    obtain ⟨_,wallet,stored',made,name,address,key⟩ := belongs
    rw [stored] at stored'
    cases stored'
    refine ⟨wallet,?_,name⟩
    simp [Wallet.loadFromFile,stored,opened,made,address,key]
  · intro loads
    obtain ⟨wallet,loaded,name⟩ := loads
    obtain ⟨text,opened,made⟩ := loaded_parts loaded
    obtain rfl := decrypts_unique opened decrypts
    obtain ⟨backup,stored,opened⟩ := opened
    simp only [Wallet.loadFromFile,stored,opened,made,Option.map_some,Option.some.injEq] at loaded
    split at loaded
    · cases loaded
    · rename_i address
      split at loaded
      · cases loaded
      · rename_i key
        exact ⟨backup,wallet,stored,made,name,not_not.mp address,not_not.mp key⟩

theorem startWallet_starts (promised : Promised w "") (contents : String) (session : Session) :
    ∃ wallet, WalletApp.startWallet w (some contents) session = some (some contents,wallet) ∧
      Wallet.fromMnemonic w wallet.mnemonic = some (.ok wallet) ∧
      ∀ loaded, Wallet.loadFromFile w contents "" = some (.ok loaded) → wallet = loaded := by
  have answers : ∃ answer, Wallet.loadFromFile w contents "" = some answer := by
    unfold Wallet.loadFromFile
    split
    · exact ⟨_,rfl⟩
    · split
      · exact ⟨_,rfl⟩
      · rename_i text _
        obtain ⟨answer,made⟩ := fromMnemonic_answers promised text
        rw [made]
        exact ⟨_,rfl⟩
  obtain ⟨answer,loads⟩ := answers
  cases answer with
  | ok loaded =>
    obtain ⟨_,_,made⟩ := loaded_parts loads
    refine ⟨loaded,?_,fromMnemonic_again promised made,fun other again => ?_⟩
    · simp [WalletApp.startWallet,Wallet.loadOrCreateState,loads]
    · rw [loads] at again
      exact Except.ok.inj (Option.some.inj again)
  | error text =>
    obtain ⟨wallet,made,again⟩ := new_made promised session.newEntropy
    refine ⟨wallet,?_,again,fun other loaded => ?_⟩
    · simp [WalletApp.startWallet,Wallet.loadOrCreateState,loads,made]
    · rw [loads] at loaded
      cases loaded

-- The seal is one of the phrase, the address and the key, which a sync leaves alone.
theorem Sealed.unsynced (sealedFile : Sealed w (wallet.syncBalance blockchain) password contents) :
    Sealed w wallet password contents := by
  obtain ⟨salt,nonce,key,ciphertext,parts⟩ := sealedFile
  exact ⟨salt,nonce,key,ciphertext,parts.saltLength,parts.nonceLength,parts.hashed,parts.encrypted,parts.stored⟩

-- What sessions leave of a file: a wallet under the empty password, which has the
-- phrase of the file wherever the file could be loaded.
structure Leaves (w : WalletCrates c) (contents : String) (wallet : Wallet c w) (after : String) : Prop where
  sealedFile : Sealed w wallet "" after
  again : Wallet.fromMnemonic w wallet.mnemonic = some (.ok wallet)
  phrase : ∀ loaded, Wallet.loadFromFile w contents "" = some (.ok loaded) → wallet.mnemonic = loaded.mnemonic

theorem Leaves.protects (promised : Promised w "") (opens : OpensUnder w "") (leaves : Leaves w contents wallet after) :
    Protects w after "" wallet.mnemonic :=
  sealed_protects promised opens leaves.again rfl rfl rfl leaves.sealedFile

theorem session_leaves (promised : Promised w "") (contents : String) (session : Session) :
    ∃ wallet after, WalletApp.session w (some contents) session = some after ∧ Leaves w contents wallet after := by
  obtain ⟨wallet,started,again,same⟩ := startWallet_starts promised contents session
  obtain ⟨parsed,name⟩ := fromMnemonic_parts again
  obtain ⟨saved,wrote,_⟩ := writeTo_sealed promised name (some contents) session.startDraws
  have name' : (wallet.syncBalance session.blockchain).mnemonic = w.mnemonicText parsed := name
  obtain ⟨after,dropped,sealedFile⟩ := writeTo_sealed promised name' (some saved) session.dropDraws
  refine ⟨wallet,after,?_,sealedFile.unsynced,again,fun loaded loads => by rw [same loaded loads]⟩
  simp [WalletApp.session,WalletApp.default,started,wrote,WalletApp.drop,dropped]

theorem sessions_leave (promised : Promised w "") (opens : OpensUnder w "") (contents : String) (session : Session)
    (rest : List Session) : ∃ wallet after,
      (session :: rest).foldl (WalletApp.session w) (some contents) = some after ∧ Leaves w contents wallet after := by
  induction rest generalizing contents session with
  | nil => exact session_leaves promised contents session
  | cons next rest ih =>
    obtain ⟨wallet,mid,ran,leaves⟩ := session_leaves promised contents session
    obtain ⟨last,after,ran',leaves'⟩ := ih mid next
    obtain ⟨loaded,loads,name⟩ := (leaves.protects promised opens).loads
    rw [List.foldl_cons,ran]
    refine ⟨last,after,ran',leaves'.sealedFile,leaves'.again,fun first loads' => ?_⟩
    rw [leaves'.phrase loaded loads,name]
    exact leaves.phrase first loads'

-- The button of the dialog takes no empty password.
theorem createWallet_protects {app : WalletApp c w} (promised : Promised w app.passwordInput)
    (opens : OpensUnder w app.passwordInput) (genuine : app.wallet.mnemonic = w.mnemonicText parsed)
    (again : Wallet.fromMnemonic w app.wallet.mnemonic = some (.ok app.wallet))
    (typed : app.passwordInput.isEmpty = false) (same : app.passwordInput = app.passwordConfirm) (file : StateFile)
    (draws : SealDraws) : ∃ json, (app.createWallet file draws).2 = some json ∧
      Protects w json app.passwordInput app.wallet.mnemonic := by
  obtain ⟨json,wrote,sealedFile⟩ := writeTo_sealed promised genuine file draws
  refine ⟨json,?_,sealed_protects promised opens again rfl rfl rfl sealedFile⟩
  simp only [WalletApp.createWallet,typed,← same,wrote]
  simp

-- So every wallet that the dialog saves is lost at the next start.
theorem createWallet_lost {app : WalletApp c w} (start : Promised w "") (opens : OpensUnder w "")
    (fails : FailsUnder w "" app.passwordInput) (saved : (app.createWallet file draws).2 = some json) (session : Session)
    (rest : List Session) :
    ∃ after, (session :: rest).foldl (WalletApp.session w) (app.createWallet file draws).2 = some after ∧
      ∀ mnemonic, ¬ Decrypts w after app.passwordInput mnemonic := by
  rw [saved]
  obtain ⟨_,after,ran,leaves⟩ := sessions_leave start opens json session rest
  exact ⟨after,ran,fun _ => sealed_shut start fails leaves.sealedFile⟩

theorem wallet_survives_exact (promised : Promised w "") (opens : OpensUnder w "")
    (fails : password ≠ "" → FailsUnder w "" password) (decrypts : Decrypts w contents password mnemonic)
    (sessions : List Session) :
    (∃ after, sessions.foldl (WalletApp.session w) (some contents) = some after ∧ Decrypts w after password mnemonic ∧
      ((∀ wallet, Wallet.loadFromFile w contents "" ≠ some (.ok wallet)) → after = contents)) ↔
    sessions = [] ∨ password = "" ∧ Belongs w contents mnemonic := by
  cases sessions with
  | nil => exact iff_of_true ⟨contents,rfl,decrypts,fun _ => rfl⟩ (.inl rfl)
  | cons session rest =>
    obtain ⟨wallet,last,ran,leaves⟩ := sessions_leave promised opens contents session rest
    have protects := leaves.protects promised opens
    constructor
    · intro survives
      obtain ⟨after,ran',kept,untouched⟩ := survives
      rw [ran] at ran'
      cases ran'
      apply Or.inr
      obtain rfl : password = "" := by
        by_contra other
        exact sealed_shut promised (fails other) leaves.sealedFile kept
      obtain rfl := decrypts_unique protects.decrypts kept
      refine ⟨rfl,(belongs_exact decrypts).mpr ?_⟩
      -- A file that does not load is replaced by one that does.
      by_contra never
      have same := untouched fun loaded loads => never ⟨loaded,loads,(leaves.phrase loaded loads).symm⟩
      rw [same] at protects
      exact never protects.loads
    · intro condition
      obtain ⟨rfl,belongs⟩ := condition.resolve_left (List.cons_ne_nil _ _)
      obtain ⟨loaded,loads,rfl⟩ := (belongs_exact decrypts).mp belongs
      refine ⟨last,ran,?_,fun never => absurd loads (never loaded)⟩
      rw [← leaves.phrase loaded loads]
      exact protects.decrypts

theorem reference_promised (password : String) : Promised referenceWallet password := by
  constructor
  · intro bytes
    show hexPairs (String.ofList (bytes.flatMap hexDigits)).toList = .ok bytes
    rw [String.toList_ofList]
    exact hexPairs_encode bytes
  · intro backup version
    refine ⟨writeBackup backup,if_pos version,?_⟩
    simp only [referenceWallet,readBackup_write version]
  · exact fun _ _ => ⟨_,rfl⟩
  · exact fun _ _ _ _ _ _ _ => ⟨_,rfl⟩
  · exact fun _ => ⟨0,by decide,rfl⟩
  · exact fun _ => ⟨_,rfl⟩
  · exact reference_reads

theorem reference_opens (password : String) : OpensUnder referenceWallet password := by
  intro salt nonce key text ciphertext _ encrypted
  cases encrypted
  simp [referenceWallet]

theorem reference_fails : FailsUnder referenceWallet "" "x" := by
  intro salt nonce key other text ciphertext first second encrypted
  cases first
  cases second
  cases encrypted
  refine ⟨"aead::Error",?_⟩
  simp only [referenceWallet]
  apply if_neg
  intro starts
  have equal : (utf8Bytes "x" ++ List.replicate 32 0).take 32 = (utf8Bytes "" ++ List.replicate 32 0).take 32 :=
    (List.prefix_of_prefix_length_le starts (List.prefix_append _ _) (by simp)).eq_of_length (by simp)
  revert equal
  decide

def guardedWallet : Wallet reference referenceWallet := { generatorWallet with mnemonic := "seed phrase" }

def zeroDraws : SealDraws := ⟨List.replicate 16 0,List.replicate 12 0,rfl,rfl⟩
def zeroEntropy : WalletEntropy := ⟨List.replicate 16 0,rfl⟩
def plainSession : Session := ⟨zeroEntropy,zeroEntropy,zeroDraws,zeroDraws,zeroDraws,genesisState⟩

def seedPhrase : referenceWallet.Mnemonic := ⟨"seed phrase",by decide +kernel⟩

theorem guarded_again : Wallet.fromMnemonic referenceWallet guardedWallet.mnemonic = some (.ok guardedWallet) := by
  obtain ⟨secret,derived⟩ := deriveSecretKey_finds (reference_promised "") seedPhrase
  have read := (reference_promised "").reads seedPhrase
  change Wallet.fromMnemonic referenceWallet (referenceWallet.mnemonicText seedPhrase) = _
  simp only [Wallet.fromMnemonic,read,derived]
  rfl

theorem guarded_protects (password : String) : ∃ contents, Protects referenceWallet contents password "seed phrase" := by
  have genuine : guardedWallet.mnemonic = referenceWallet.mnemonicText seedPhrase := rfl
  obtain ⟨contents,_,sealedFile⟩ := writeTo_sealed (reference_promised password) genuine none zeroDraws
  exact ⟨contents,sealed_protects (reference_promised password) (reference_opens password) guarded_again rfl rfl rfl
    sealedFile⟩

theorem wallet_survives_exact_empty : ∃ contents after, Protects referenceWallet contents "" "seed phrase" ∧
    [plainSession,plainSession].foldl (WalletApp.session referenceWallet) (some contents) = some after ∧
    Decrypts referenceWallet after "" "seed phrase" := by
  obtain ⟨contents,protects⟩ := guarded_protects ""
  obtain ⟨after,ran,decrypts,_⟩ := (wallet_survives_exact (reference_promised "") (reference_opens "")
    (fun other => absurd rfl other) protects.decrypts [plainSession,plainSession]).mpr
      (.inr ⟨rfl,(belongs_exact protects.decrypts).mpr protects.loads⟩)
  exact ⟨contents,after,protects,ran,decrypts⟩

-- One start of the program and the seed phrase behind the password is gone.
theorem guarded_wallet_lost : ∃ contents after, Protects referenceWallet contents "x" "seed phrase" ∧
    WalletApp.session referenceWallet (some contents) plainSession = some after ∧
    (∀ mnemonic, ¬ Decrypts referenceWallet after "x" mnemonic) ∧ after ≠ contents := by
  obtain ⟨contents,protects⟩ := guarded_protects "x"
  obtain ⟨_,after,ran,leaves⟩ := session_leaves (reference_promised "") contents plainSession
  have lost : ∀ mnemonic, ¬ Decrypts referenceWallet after "x" mnemonic := fun _ =>
    sealed_shut (reference_promised "") reference_fails leaves.sealedFile
  refine ⟨contents,after,protects,ran,lost,?_⟩
  intro same
  rw [same] at lost
  exact lost _ protects.decrypts

end BlindEye.WalletSessions
