import BlindEye.ChainViews
import BlindEye.Mempool

namespace BlindEye

structure WalletBackup where
  version : UInt32
  address : String
  publicKeyHex : String
  encryptedMnemonic : String
  salt : String
  nonce : String
  deriving DecidableEq

-- The functions of secp256k1, bip39, hex, argon2, aes_gcm and serde_json that
-- the wallet calls, with the text that each error is displayed as.
structure WalletCrates (c : Crates) where
  SecretKey : Type
  secretFromSlice : List UInt8 → Option SecretKey
  publicFromSecret : SecretKey → c.PublicKey
  Mnemonic : Type
  fromEntropy : List UInt8 → Option Mnemonic
  parseInNormalized : String → Except String Mnemonic
  mnemonicText : Mnemonic → String
  toSeed : Mnemonic → List UInt8
  hexDecode : String → Except String (List UInt8)
  hashPassword : List UInt8 → List UInt8 → Except String (List UInt8)
  encrypt : List UInt8 → List UInt8 → List UInt8 → Except String (List UInt8)
  decrypt : List UInt8 → List UInt8 → List UInt8 → Except String (List UInt8)
  utf8Error : List UInt8 → String
  toJson : WalletBackup → Except String String
  fromJson : String → Except String WalletBackup

structure Wallet (c : Crates) (w : WalletCrates c) where
  mnemonic : String
  secret : w.SecretKey
  publicKey : c.PublicKey
  address : String
  balance : UInt64
  transactions : List Transaction

structure TransactionPreview where
  transaction : Transaction
  recipientAddress : String
  amount : UInt64
  fee : UInt64
  change : UInt64
  selectedInputValue : UInt64
  deriving DecidableEq

def splitWhitespace (text : String) : List String :=
  ((text.toList.splitOnP isWhiteSpace).filter fun word => !word.isEmpty).map String.ofList

namespace Wallet

variable {c : Crates} {w : WalletCrates c}

-- The loop over the counters below u32::MAX. `none` is the panic behind it.
def deriveFrom (w : WalletCrates c) (seed : List UInt8) : Nat → UInt32 → Option w.SecretKey
  | 0,_ => none
  | rounds + 1,counter =>
    match w.secretFromSlice (c.blake3 (seed ++ u32Bytes counter)).bytes with
    | some secret => some secret
    | none => deriveFrom w seed rounds (counter + 1)

def deriveSecretKey (w : WalletCrates c) (mnemonic : w.Mnemonic) : Option w.SecretKey :=
  deriveFrom w (w.toSeed mnemonic) (2^32 - 1) 0

def fromMnemonic (w : WalletCrates c) (mnemonic : String) : Option (Except String (Wallet c w)) :=
  let normalized := " ".intercalate (splitWhitespace mnemonic)
  match w.parseInNormalized normalized with
  | .error err => some (.error ("Invalid seed phrase: " ++ err))
  | .ok parsed => (deriveSecretKey w parsed).map fun secret =>
    let publicKey := w.publicFromSecret secret
    .ok ⟨w.mnemonicText parsed,secret,publicKey,addressFromPublicKey c publicKey,0,[]⟩

-- `entropy` is what the random generator fills in. `none` is a panic.
def new (w : WalletCrates c) (entropy : List UInt8) : Option (Wallet c w) :=
  match w.fromEntropy entropy with
  | none => none
  | some mnemonic =>
    match fromMnemonic w (w.mnemonicText mnemonic) with
    | some (.ok wallet) => some wallet
    | _ => none

def encryptMnemonic (w : WalletCrates c) (mnemonic password : String) (salt nonce : List UInt8) :
    Except String (String × String × String) :=
  match w.hashPassword (utf8Bytes password) salt with
  | .error e => .error ("Argon2 hashing failed: " ++ e)
  | .ok key =>
    match w.encrypt key nonce (utf8Bytes mnemonic) with
    | .error e => .error ("Encryption failed: " ++ e)
    | .ok ciphertext => .ok (c.hexEncode ciphertext,c.hexEncode salt,c.hexEncode nonce)

def decryptMnemonic (w : WalletCrates c) (encryptedHex saltHex nonceHex password : String) : Except String String :=
  match w.hexDecode saltHex with
  | .error e => .error ("Invalid salt hex: " ++ e)
  | .ok salt =>
    if salt.length ≠ 16 then .error "Invalid salt length"
    else match w.hashPassword (utf8Bytes password) salt with
    | .error e => .error ("Argon2 hashing failed: " ++ e)
    | .ok key =>
      match w.hexDecode nonceHex with
      | .error e => .error ("Invalid nonce hex: " ++ e)
      | .ok nonce =>
        if nonce.length ≠ 12 then .error "Invalid nonce length"
        else match w.hexDecode encryptedHex with
        | .error e => .error ("Invalid ciphertext hex: " ++ e)
        | .ok ciphertext =>
          match w.decrypt key nonce ciphertext with
          | .error e => .error ("Decryption failed (wrong password?): " ++ e)
          | .ok plaintext =>
            match String.fromUTF8? ⟨plaintext.toArray⟩ with
            | none => .error ("Invalid UTF-8 in decrypted mnemonic: " ++ w.utf8Error plaintext)
            | some mnemonic => .ok mnemonic

-- `salt` and `nonce` are what the random generator fills in.
def toBackup (wallet : Wallet c w) (password : String) (salt nonce : List UInt8) : Except String WalletBackup :=
  (encryptMnemonic w wallet.mnemonic password salt nonce).map fun (encryptedMnemonic,salt,nonce) =>
    ⟨3,wallet.address,c.hexEncode (c.serialize wallet.publicKey),encryptedMnemonic,salt,nonce⟩

-- The answer is what the file holds afterwards, on a disk that does not fail.
def saveToFile (wallet : Wallet c w) (password : String) (salt nonce : List UInt8) : Except String String :=
  match wallet.toBackup password salt nonce with
  | .error text => .error text
  | .ok backup =>
    match w.toJson backup with
    | .error err => .error ("Failed to serialize wallet state: " ++ err)
    | .ok json => .ok json

def loadFromFile (w : WalletCrates c) (contents password : String) : Option (Except String (Wallet c w)) :=
  match w.fromJson contents with
  | .error err => some (.error ("Failed to parse wallet state: " ++ err))
  | .ok backup =>
    match decryptMnemonic w backup.encryptedMnemonic backup.salt backup.nonce password with
    | .error text => some (.error text)
    | .ok mnemonic => (fromMnemonic w mnemonic).map fun
      | .error text => .error text
      | .ok wallet =>
        if wallet.address ≠ backup.address then .error "Wallet state address does not match the seed phrase"
        else if c.hexEncode (c.serialize wallet.publicKey) ≠ backup.publicKeyHex then
          .error "Wallet state public key does not match the seed phrase"
        else .ok wallet

def validateAddress (w : WalletCrates c) (address : String) : Bool :=
  if ¬ ['B','E','C'] <+: address.toList then false
  else
    let payload := String.ofList (address.toList.drop 3)
    decide (payload.utf8ByteSize = 40) && (w.hexDecode payload).isOk

def addressBytes (wallet : Wallet c w) : List UInt8 := utf8Bytes wallet.address

-- The loop over the spendable outputs.
def selectInputs (reservedOutpoints : Finset OutPoint) (targetAmount : UInt64) : List (OutPoint × Utxo) →
    List (OutPoint × Utxo) → UInt64 → Except String (List (OutPoint × Utxo) × UInt64)
  | [],selectedInputs,selectedTotal => .ok (selectedInputs,selectedTotal)
  | (outpoint,utxo) :: rest,selectedInputs,selectedTotal =>
    if outpoint ∈ reservedOutpoints then selectInputs reservedOutpoints targetAmount rest selectedInputs selectedTotal
    else match checkedAdd selectedTotal utxo.output.value with
    | none => .error "Selected input value overflowed"
    | some selectedTotal =>
      let selectedInputs := selectedInputs ++ [(outpoint,utxo)]
      if selectedTotal ≥ targetAmount then .ok (selectedInputs,selectedTotal)
      else selectInputs reservedOutpoints targetAmount rest selectedInputs selectedTotal

-- `listing` is the order in which the hash map yields its entries.
def buildTransactionPreview (wallet : Wallet c w) (blockchain : Blockchain) (listing : List (OutPoint × Utxo))
    (reservedOutpoints : Finset OutPoint) (recipient : String) (amount fee : UInt64) : Except String TransactionPreview :=
  if ¬ validateAddress w recipient then .error "Recipient address is not a valid BlindEye address"
  else if amount = 0 then .error "Amount must be greater than zero"
  else match checkedAdd amount fee with
  | none => .error "Amount plus fee exceeds supported range"
  | some targetAmount =>
    match selectInputs reservedOutpoints targetAmount
        (Blockchain.getSpendableUtxos listing wallet.addressBytes) [] 0 with
    | .error text => .error text
    | .ok (selectedInputs,selectedTotal) =>
      if selectedTotal < targetAmount then
        .error ("Insufficient funds: need " ++ Protocol.formatBecAmount targetAmount ++ " BEC but only " ++
          Protocol.formatBecAmount selectedTotal ++ " BEC is spendable")
      else
        let inputs := selectedInputs.map fun (outpoint,_) => ⟨outpoint,c.serialize wallet.publicKey,UInt32.ofNat (2^32 - 1)⟩
        let change := selectedTotal - targetAmount
        let outputs := ⟨amount,utf8Bytes recipient⟩ :: if change > 0 then [⟨change,wallet.addressBytes⟩] else []
        let transaction := Transaction.new inputs outputs
        match blockchain.validateTransaction c transaction with
        | .error err => .error err
        | .ok () => .ok ⟨transaction,recipient,amount,fee,change,selectedTotal⟩

def initialFeeEstimateBytes : UInt64 := 220

-- The loop of `estimate_fee_for_rate`. It ends early at a fee that pays for
-- itself, and otherwise with the fee that the last round asked for.
def settleFee (build : UInt64 → Except String TransactionPreview) (feeRate : UInt64) : Nat → UInt64 → Except String UInt64
  | 0,fee => .ok fee
  | rounds + 1,fee =>
    match build fee with
    | .error text => .error text
    | .ok preview =>
      let requiredFee := saturate (preview.transaction.estimatedSize * feeRate.toNat)
      if requiredFee = fee then .ok fee else settleFee build feeRate rounds requiredFee

def estimateFeeForRate (wallet : Wallet c w) (blockchain : Blockchain) (listing : List (OutPoint × Utxo))
    (reservedOutpoints : Finset OutPoint) (recipient : String) (amount feeRate : UInt64) : Except String UInt64 :=
  if feeRate = 0 then .ok 0
  else settleFee (wallet.buildTransactionPreview blockchain listing reservedOutpoints recipient amount) feeRate 4
    (saturate (feeRate.toNat * initialFeeEstimateBytes.toNat))

end Wallet

end BlindEye
