import BlindEye.Wallet

namespace BlindEye

-- What one call of `encrypt_mnemonic` takes from the random generator.
structure SealDraws where
  salt : List UInt8
  nonce : List UInt8
  saltLength : salt.length = 16
  nonceLength : nonce.length = 12

structure WalletEntropy where
  bytes : List UInt8
  length : bytes.length = 16

-- `none` stands for a path that does not exist.
abbrev StateFile := Option String

variable {c : Crates} {w : WalletCrates c}

-- A save that fails leaves the file as it was.
def Wallet.writeTo (wallet : Wallet c w) (file : StateFile) (password : String) (draws : SealDraws) : StateFile × Answer :=
  match wallet.saveToFile password draws.salt draws.nonce with
  | .error text => (file,.error text)
  | .ok json => (some json,.ok ())

def Wallet.loadOrCreateState (w : WalletCrates c) (file : StateFile) (password : String) (entropy : WalletEntropy)
    (draws : SealDraws) : Option (StateFile × Except String (Wallet c w)) :=
  match file with
  | some contents => (loadFromFile w contents password).map fun answer => (some contents,answer)
  | none => (new w entropy.bytes).map fun wallet =>
    let (file,answer) := wallet.writeTo none password draws
    (file,answer.map fun _ => wallet)

def Wallet.syncBalance (wallet : Wallet c w) (blockchain : Blockchain) : Wallet c w :=
  { wallet with
    balance := blockchain.getBalance wallet.addressBytes
    transactions := (blockchain.walletTransactionHistory c wallet.addressBytes).map WalletTransactionRecord.transaction }

structure WalletApp (c : Crates) (w : WalletCrates c) where
  wallet : Wallet c w
  walletPassword : String
  showPasswordDialog : Bool
  passwordInput : String
  passwordConfirm : String

-- What one run of the program meets from outside: random bytes, and the chain of
-- the node that it starts.
structure Session where
  createEntropy : WalletEntropy
  newEntropy : WalletEntropy
  createDraws : SealDraws
  startDraws : SealDraws
  dropDraws : SealDraws
  blockchain : Blockchain

namespace WalletApp

def startWallet (w : WalletCrates c) (file : StateFile) (session : Session) : Option (StateFile × Wallet c w) :=
  if file.isSome then
    match Wallet.loadOrCreateState w file "" session.createEntropy session.createDraws with
    | none => none
    | some (file,.ok wallet) => some (file,wallet)
    | some (file,.error _) => (Wallet.new w session.newEntropy.bytes).map fun wallet => (file,wallet)
  else (Wallet.new w session.newEntropy.bytes).map fun wallet => (file,wallet)

-- `none` is a panic, before which nothing of a file that exists is written.
def default (w : WalletCrates c) (file : StateFile) (session : Session) : Option (WalletApp c w × StateFile) :=
  (startWallet w file session).map fun (started,wallet) =>
    let app : WalletApp c w := ⟨wallet,"",!file.isSome,"",""⟩
    if file.isSome then
      let saved := (app.wallet.writeTo started app.walletPassword session.startDraws).1
      ({ app with wallet := wallet.syncBalance session.blockchain },saved)
    else (app,started)

def drop (app : WalletApp c w) (file : StateFile) (draws : SealDraws) : StateFile :=
  (app.wallet.writeTo file app.walletPassword draws).1

-- The button of the password dialog, enabled on two equal entries.
def createWallet (app : WalletApp c w) (file : StateFile) (draws : SealDraws) : WalletApp c w × StateFile :=
  if ¬ app.passwordInput.isEmpty ∧ app.passwordInput = app.passwordConfirm then
    let app := { app with walletPassword := app.passwordInput }
    match app.wallet.writeTo file app.walletPassword draws with
    | (file,.ok ()) => ({ app with showPasswordDialog := false, passwordInput := "", passwordConfirm := "" },file)
    | (file,.error _) => (app,file)
  else (app,file)

-- The program is started and closed. Without an app there is no drop.
def session (w : WalletCrates c) (file : StateFile) (session : Session) : StateFile :=
  match default w file session with
  | none => file
  | some (app,file) => app.drop file session.dropDraws

end WalletApp

end BlindEye
