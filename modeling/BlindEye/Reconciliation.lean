import BlindEye.ChainViews
import BlindEye.CoinCreation
import BlindEye.CoinOrigin
import BlindEye.SpendOnce

namespace BlindEye.Reconciliation
open Blockchain ChainState CoinHistory CoinOrigin LedgerRules SpendHistory FiniteMap

variable {c : Crates} {s : Blockchain} {utxoSet : UtxoSet} {tx : Transaction} {script : List UInt8} {header : BlockHeader}
  {known : KnownOutputs} {records after : List WalletTransactionRecord}

-- What a coin is worth to the holder of the script.
def ownValue (script : List UInt8) (utxo : Utxo) : Nat :=
  if utxo.output.scriptPubkey = script then utxo.output.value.toNat else 0

def ownSpent (script : List UInt8) (utxoSet : UtxoSet) (tx : Transaction) : Nat :=
  (tx.spends.map (valueAt (ownValue script) utxoSet)).sum

def paidTo (script : List UInt8) (outputs : List TxOutput) : Nat :=
  (outputs.map fun output => if output.scriptPubkey = script then output.value.toNat else 0).sum

-- The coins of the script whose outpoints the transaction makes again while they
-- are unspent.
def overwritten (c : Crates) (script : List UInt8) (utxoSet : UtxoSet) (entry : Entry) : Nat :=
  replaced (ownValue script) (eraseAll utxoSet entry.1.spends) (entry.1.created c entry.2)

-- What a transaction that spends coins of the script pays beyond them, out of the
-- coins of others.
def uncovered (script : List UInt8) (utxoSet : UtxoSet) (entry : Entry) : Nat :=
  if ownSpent script utxoSet entry.1 = 0 then 0 else outputTotal entry.1 - ownSpent script utxoSet entry.1

def overChain (c : Crates) (measure : UtxoSet → Entry → Nat) (posted : List Entry) : Nat :=
  along spends (creates c) measure ∅ posted

def recorded (wanted : List WalletTransactionDirection) (worth : WalletTransactionRecord → Nat)
    (history : List WalletTransactionRecord) : Nat :=
  ((history.filter fun record => record.direction ∈ wanted).map worth).sum

def inflow (history : List WalletTransactionRecord) : Nat :=
  recorded [.miningReward,.incoming] (fun record => record.amount.toNat) history

def outflow (history : List WalletTransactionRecord) : Nat :=
  recorded [.outgoing] (fun record => record.amount.toNat + record.fee.toNat) history +
    recorded [.selfTransfer] (fun record => record.fee.toNat) history

def Reconciles (c : Crates) (s : Blockchain) (script : List UInt8) : Prop :=
  let history := s.walletTransactionHistory c script
  ((s.getBalance script).toNat : Int) = inflow history - outflow history

-- No u64 sum over the best chain or over the balance wraps.
structure Fits (s : Blockchain) (script : List UInt8) : Prop where
  outputs : ∀ tx ∈ transactionsOn s s.bestChain, outputTotal tx < 2^64
  balance : total (ownValue script) s.utxoSet < 2^64

-- The coins that were overwritten are worth what others put into transactions
-- of the script.
def Balanced (c : Crates) (s : Blockchain) (script : List UInt8) : Prop :=
  overChain c (overwritten c script) (entriesOn s s.bestChain) =
    overChain c (uncovered script) (entriesOn s s.bestChain)

-- The amounts that `wallet_transaction_history` takes of a transaction.
def incomingAmount (script : List UInt8) (tx : Transaction) : UInt64 :=
  sumValues (tx.outputs.filter fun output => decide (output.scriptPubkey = script))

def ownedInputAmount (script : List UInt8) (known : KnownOutputs) (tx : Transaction) : UInt64 :=
  sumValues ((tx.inputs.filterMap fun input => known.find input.previousOutput).filter
    fun output => decide (output.scriptPubkey = script))

def externalSendAmount (script : List UInt8) (tx : Transaction) : UInt64 :=
  sumValues (tx.outputs.filter fun output => !decide (output.scriptPubkey = script))

def feeOf (script : List UInt8) (known : KnownOutputs) (tx : Transaction) : UInt64 :=
  saturate ((ownedInputAmount script known tx).toNat - tx.totalOutputValue.toNat)

-- What the loop does with one transaction.
inductive Recorded (script : List UInt8) (known : KnownOutputs) (tx : Transaction)
    (records : List WalletTransactionRecord) : List WalletTransactionRecord → Prop where
  | skipped : incomingAmount script tx = 0 → ownedInputAmount script known tx = 0 →
      Recorded script known tx records records
  | mined : tx.inputs = [] → record.direction = .miningReward → record.amount = incomingAmount script tx →
      Recorded script known tx records (records ++ [record])
  | received : ownedInputAmount script known tx = 0 → record.direction = .incoming →
      record.amount = incomingAmount script tx → Recorded script known tx records (records ++ [record])
  | moved : ownedInputAmount script known tx > 0 → externalSendAmount script tx = 0 →
      record.direction = .selfTransfer → record.fee = feeOf script known tx →
      Recorded script known tx records (records ++ [record])
  | sent : ownedInputAmount script known tx > 0 → record.direction = .outgoing →
      record.amount = externalSendAmount script tx → record.fee = feeOf script known tx →
      Recorded script known tx records (records ++ [record])

theorem recordTransaction_known : (recordTransaction c script header (known,records) tx).1 =
    known.insert (tx.txid c) tx.outputs := by
  unfold recordTransaction
  dsimp only
  split <;> rfl

theorem recordTransaction_recorded : Recorded script known tx records
    (recordTransaction c script header (known,records) tx).2 := by
  unfold recordTransaction
  dsimp only
  split
  · rename_i none
    exact .skipped none.1 none.2
  · by_cases minted : tx.inputs = []
    · rw [if_pos (by simpa using minted)]
      exact .mined minted rfl rfl
    · rw [if_neg (by simpa using minted)]
      by_cases owned : ownedInputAmount script known tx > 0
      · unfold ownedInputAmount at owned
        rw [if_pos owned]
        by_cases moved : externalSendAmount script tx = 0
        · unfold externalSendAmount at moved
          rw [if_pos moved]
          exact .moved owned moved rfl rfl
        · unfold externalSendAmount at moved
          rw [if_neg moved]
          exact .sent owned rfl rfl rfl
      · have none : ownedInputAmount script known tx = 0 := by
          apply UInt64.toNat_inj.mp
          exact Nat.eq_zero_of_not_pos fun positive => owned (UInt64.lt_iff_toNat_lt.mpr positive)
        unfold ownedInputAmount at owned
        rw [if_neg owned]
        exact .received none rfl rfl

theorem sumValues_exact {outputs : List TxOutput} (fits : (outputs.map fun output => output.value.toNat).sum < 2^64) :
    (sumValues outputs).toNat = (outputs.map fun output => output.value.toNat).sum := by
  rw [sumValues,sum_wraps,List.map_map]
  exact Nat.mod_eq_of_lt fits

theorem own_outputs (script : List UInt8) (outputs : List TxOutput) :
    ((outputs.filter fun output => decide (output.scriptPubkey = script)).map fun output => output.value.toNat).sum =
      paidTo script outputs := by
  induction outputs with
  | nil => rfl
  | cons output rest ih =>
    by_cases own : output.scriptPubkey = script
    · simp [paidTo,own,ih]
    · simp [paidTo,own,ih]

theorem other_outputs (script : List UInt8) (outputs : List TxOutput) : paidTo script outputs +
    ((outputs.filter fun output => !decide (output.scriptPubkey = script)).map fun output => output.value.toNat).sum =
      (outputs.map fun output => output.value.toNat).sum := by
  induction outputs with
  | nil => rfl
  | cons output rest ih =>
    by_cases own : output.scriptPubkey = script
    · simp [paidTo,own] at ih ⊢
      omega
    · simp [paidTo,own] at ih ⊢
      omega

theorem incoming_exact (fits : outputTotal tx < 2^64) : (incomingAmount script tx).toNat = paidTo script tx.outputs := by
  have parts := other_outputs script tx.outputs
  rw [← own_outputs] at parts ⊢
  apply sumValues_exact
  unfold outputTotal at fits
  omega

theorem external_exact (fits : outputTotal tx < 2^64) :
    paidTo script tx.outputs + (externalSendAmount script tx).toNat = outputTotal tx := by
  have parts := other_outputs script tx.outputs
  rw [externalSendAmount,sumValues_exact]
  · exact parts
  · unfold outputTotal at fits
    omega

-- What the history knows of the coins of the ledger.
def Knows (known : KnownOutputs) (utxoSet : UtxoSet) : Prop :=
  ∀ o utxo, utxoSet.lookup o = some utxo → known.find o = some utxo.output

theorem own_inputs (knows : Knows known utxoSet) {inputs : List TxInput}
    (present : ∀ input ∈ inputs, input.previousOutput ∈ utxoSet) :
    paidTo script (inputs.filterMap fun input => known.find input.previousOutput) =
      ((inputs.map TxInput.previousOutput).map (valueAt (ownValue script) utxoSet)).sum := by
  induction inputs with
  | nil => rfl
  | cons input rest ih =>
    obtain ⟨utxo,found⟩ := Finmap.mem_iff.mp (present input List.mem_cons_self)
    have later := ih fun other member => present other (List.mem_cons_of_mem _ member)
    have named : known.find input.previousOutput = some utxo.output := knows _ utxo found
    rw [List.map_cons,List.map_cons,List.sum_cons,← later]
    simp [paidTo,valueAt,found,named,ownValue]

theorem owned_exact (knows : Knows known utxoSet) (present : ∀ o ∈ tx.spends, o ∈ utxoSet)
    (fits : ownSpent script utxoSet tx < 2^64) : (ownedInputAmount script known tx).toNat = ownSpent script utxoSet tx := by
  have named : paidTo script (tx.inputs.filterMap fun input => known.find input.previousOutput) =
      ownSpent script utxoSet tx := own_inputs knows fun input member => present _ (List.mem_map_of_mem member)
  rw [← own_outputs] at named
  rw [ownedInputAmount,sumValues_exact (named ▸ fits),named]

-- A transaction that is taken spends less than 2^64.
theorem taken_fits (taken : Taken c utxoSet tx) : ownSpent script utxoSet tx < 2^64 := by
  rcases taken with minted | paid
  · have spendless : tx.spends = [] := by simp [Transaction.spends,minted]
    rw [ownSpent,spendless,List.map_nil]
    exact Nat.two_pow_pos 64
  · obtain ⟨fee,paid⟩ := paid
    obtain ⟨_,_,fits,_⟩ := validateTransaction_exact.mp paid
    refine Nat.lt_of_le_of_lt (List.sum_le_sum fun o _ => ?_) fits
    unfold valueAt ownValue coinValue
    cases utxoSet.lookup o with
    | none => exact Nat.le_refl _
    | some utxo =>
      simp only [Option.map_some,Option.getD_some]
      split
      · exact Nat.le_refl _
      · exact Nat.zero_le _

theorem ledger_step (script : List UInt8) (taken : Taken c utxoSet tx) (height : UInt64) :
    total (ownValue script) (applyTransaction c tx utxoSet height) + ownSpent script utxoSet tx +
      overwritten c script utxoSet (tx,height) = total (ownValue script) utxoSet + paidTo script tx.outputs := by
  obtain ⟨distinct,present⟩ := taken_present taken
  have erased := total_eraseAll (f := ownValue script) distinct present
  have added := total_insertAll (f := ownValue script) (m := eraseAll utxoSet tx.spends) (tx.created c height)
  have made : ((tx.created c height).map fun entry => ownValue script entry.2).sum = paidTo script tx.outputs :=
    created_sum (fun output => if output.scriptPubkey = script then output.value.toNat else 0) height
  rw [made] at added
  unfold applyTransaction ownSpent overwritten
  dsimp only
  omega

theorem recorded_append (wanted : List WalletTransactionDirection) (worth : WalletTransactionRecord → Nat)
    (records : List WalletTransactionRecord) (record : WalletTransactionRecord) :
    recorded wanted worth (records ++ [record]) =
      recorded wanted worth records + if record.direction ∈ wanted then worth record else 0 := by
  unfold recorded
  by_cases counted : record.direction ∈ wanted
  · simp [counted]
  · simp [counted]

theorem recorded_reverse (wanted : List WalletTransactionDirection) (worth : WalletTransactionRecord → Nat)
    (records : List WalletTransactionRecord) : recorded wanted worth records.reverse = recorded wanted worth records := by
  rw [recorded,List.filter_reverse,List.map_reverse,List.sum_reverse]
  rfl

-- The record of a transaction accounts for what the script gained, up to what
-- its own coins did not cover.
theorem record_step (step : Recorded script known tx records after) (knows : Knows known utxoSet)
    (taken : Taken c utxoSet tx) (fits : outputTotal tx < 2^64) (height : UInt64) :
    inflow after + outflow records + ownSpent script utxoSet tx + uncovered script utxoSet (tx,height) =
      inflow records + outflow after + paidTo script tx.outputs := by
  have incoming : (incomingAmount script tx).toNat = paidTo script tx.outputs := incoming_exact fits
  have external : paidTo script tx.outputs + (externalSendAmount script tx).toNat = outputTotal tx := external_exact fits
  have owned : (ownedInputAmount script known tx).toNat = ownSpent script utxoSet tx :=
    owned_exact knows (taken_present taken).2 (taken_fits taken)
  have fee : (feeOf script known tx).toNat = ownSpent script utxoSet tx - outputTotal tx := by
    have bound : ownSpent script utxoSet tx < 2^64 := taken_fits taken
    rw [feeOf,saturate_toNat,owned,totalOutputValue_wraps,Nat.mod_eq_of_lt fits]
    omega
  unfold inflow outflow uncovered
  cases step with
  | skipped nothing unspent =>
    have spent : ownSpent script utxoSet tx = 0 := by rw [← owned,unspent]; rfl
    have paid : paidTo script tx.outputs = 0 := by rw [← incoming,nothing]; rfl
    simp [spent,paid]
  | mined minted direction amount =>
    have unspent : ownSpent script utxoSet tx = 0 := by simp [ownSpent,Transaction.spends,minted]
    simp [recorded_append,direction,amount,incoming,unspent]
    omega
  | received none direction amount =>
    have unspent : ownSpent script utxoSet tx = 0 := by rw [← owned,none]; rfl
    simp [recorded_append,direction,amount,incoming,unspent]
    omega
  | moved positive inside direction charged =>
    have spent : ownSpent script utxoSet tx ≠ 0 := by
      rw [← owned]
      exact Nat.ne_of_gt (UInt64.lt_iff_toNat_lt.mp positive)
    rw [inside] at external
    simp [recorded_append,direction,charged,fee,spent]
    simp at external
    omega
  | sent positive direction amount charged =>
    have spent : ownSpent script utxoSet tx ≠ 0 := by
      rw [← owned]
      exact Nat.ne_of_gt (UInt64.lt_iff_toNat_lt.mp positive)
    simp [recorded_append,direction,amount,charged,fee,spent]
    omega

-- The outpoints that a transaction makes are numbered as its outputs are, as long
-- as a u32 counts them.
theorem numbered_index (few : tx.outputs.length ≤ 2^32) (made : (insertAll ∅ (numbered c tx)).lookup o = some output) :
    tx.outputs[o.vout.toNat]? = some output := by
  obtain ⟨⟨output',i⟩,member,equal⟩ := List.mem_map.mp (entry_of_insertAll made)
  cases equal
  have at_ := List.mem_zipIdx_iff_getElem?.mp member
  have inside := (List.getElem?_eq_some_iff.mp at_).1
  have small : (UInt32.ofNat i).toNat = i := UInt32.toNat_ofNat_of_lt' (Nat.lt_of_lt_of_le inside few)
  dsimp only
  rw [small]
  exact at_

-- The history and the ledger after the same transactions of a chain.
structure Tracks (c : Crates) (script : List UInt8) (onChain : Set Transaction) (utxoSet : UtxoSet)
    (state : KnownOutputs × List WalletTransactionRecord) (posted : List Entry) : Prop where
  history : Posted c posted utxoSet
  origin : Origin c onChain utxoSet
  sound : ∀ txid outputs, state.1.lookup txid = some outputs → ∃ tx ∈ onChain, tx.txid c = txid ∧ tx.outputs = outputs
  named : ∀ o ∈ utxoSet, o.txid ∈ state.1
  balanced : total (ownValue script) utxoSet + overChain c (overwritten c script) posted + outflow state.2 =
    inflow state.2 + overChain c (uncovered script) posted

section
variable {onChain : Set Transaction} {state : KnownOutputs × List WalletTransactionRecord} {posted : List Entry}
  (identify : Set.InjOn (Transaction.txid c) onChain) (few : ∀ tx ∈ onChain, tx.outputs.length ≤ 2^32)
  (tracks : Tracks c script onChain utxoSet state posted)
include identify few tracks

theorem tracks_knows : Knows state.1 utxoSet := by
  intro o utxo found
  obtain ⟨tx,member,height,made⟩ := tracks.origin o utxo found
  obtain ⟨output,txid⟩ := created_output made
  obtain ⟨outputs,named⟩ := Finmap.mem_iff.mp (tracks.named o (Finmap.mem_iff.mpr ⟨utxo,found⟩))
  obtain ⟨tx',member',txid',rfl⟩ := tracks.sound _ outputs named
  obtain rfl := identify member' member (txid'.trans txid)
  rw [KnownOutputs.find,named]
  exact numbered_index (few _ member) output

theorem tracks_step (header : BlockHeader) (member : tx ∈ onChain) (taken : Taken c utxoSet tx)
    (fits : outputTotal tx < 2^64) : Tracks c script onChain (applyTransaction c tx utxoSet header.height)
      (recordTransaction c script header state tx) (posted ++ [(tx,header.height)]) := by
  have knows := tracks_knows identify few tracks
  obtain ⟨known,records⟩ := state
  obtain ⟨distinct,present⟩ := taken_present taken
  refine ⟨.post tracks.history distinct present,tracks.origin.apply member,?_,?_,?_⟩
  · intro txid outputs found
    rw [recordTransaction_known] at found
    rcases FiniteMap.lookup_insert_cases found with ⟨rfl,rfl⟩ | ⟨_,before⟩
    · exact ⟨tx,member,rfl,rfl⟩
    · exact tracks.sound txid outputs before
  · intro o inside
    rw [recordTransaction_known,Finmap.mem_insert]
    rcases mem_applyTransaction.mp inside with ⟨old,_⟩ | new
    · exact .inr (tracks.named o old)
    · exact .inl (outpoints_txid new)
  · have ledger := ledger_step script taken header.height
    have step : Recorded script known tx records (recordTransaction c script header (known,records) tx).2 :=
      recordTransaction_recorded
    have record := record_step step knows taken fits header.height
    have balanced := tracks.balanced
    have lost := history_along (t := (tx,header.height)) tracks.history (overwritten c script)
    have lent := history_along (t := (tx,header.height)) tracks.history (uncovered script)
    unfold overChain at balanced ⊢
    dsimp only at balanced
    omega

end

section
variable {block : Block} {onChain : Set Transaction} {state : KnownOutputs × List WalletTransactionRecord}
  {posted : List Entry} (identify : Set.InjOn (Transaction.txid c) onChain)
  (few : ∀ tx ∈ onChain, tx.outputs.length ≤ 2^32) (fits : ∀ tx ∈ onChain, outputTotal tx < 2^64)
include identify few fits

theorem tracks_block (tracks : Tracks c script onChain utxoSet state posted)
    (members : ∀ tx ∈ block.transactions, tx ∈ onChain) (applied : applyBlockToUtxoSet c block utxoSet = .ok ledger) :
    Tracks c script onChain ledger (block.transactions.foldl (recordTransaction c script block.header) state)
      (posted ++ entriesOf block) := by
  refine block_rule (motive := fun ledger done => Tracks c script onChain ledger
    (done.foldl (recordTransaction c script block.header) state) (posted ++ done.map fun tx => (tx,block.header.height)))
    (by simpa using tracks) ?_ applied
  intro before tx later ledger split now taken
  have member : tx ∈ onChain := members tx (by simp [split])
  rw [List.foldl_append,List.map_append,← List.append_assoc]
  exact tracks_step identify few now block.header member taken (fits tx member)

theorem tracks_replay {chain : List Digest} (bootstrap : s.bootstrapUtxos = ∅) (built : s.buildUtxoStateForChain c chain = .ok utxoSet)
    (members : ∀ tx ∈ transactionsOn s chain, tx ∈ onChain) :
    Tracks c script onChain utxoSet (chain.foldl (s.recordBlock c script) (∅,[])) (entriesOn s chain) := by
  refine Fallible.fold_invariant (motive := fun utxoSet done => Tracks c script onChain utxoSet
    (done.foldl (s.recordBlock c script) (∅,[])) (entriesOn s done)) ?_ ?_ built
  · rw [bootstrap]
    refine ⟨.nil,?_,?_,?_,rfl⟩
    · intro o utxo found
      cases found
    · intro txid outputs found
      cases found
    · intro o inside
      cases Finmap.notMem_empty inside
  · intro before k later utxoSet next split now step
    obtain ⟨b,stored,applied⟩ := applyStored_exact.mp step
    have records : (before ++ [k]).foldl (s.recordBlock c script) (∅,[]) =
        b.transactions.foldl (recordTransaction c script b.header) (before.foldl (s.recordBlock c script) (∅,[])) := by
      rw [List.foldl_append,List.foldl_cons,List.foldl_nil,recordBlock,stored]
    rw [entries_snoc stored,records]
    apply tracks_block identify few fits now _ applied
    intro tx inside
    apply members
    exact mem_transactionsOn.mpr ⟨k,by rw [split]; simp,b,stored,inside⟩

end

-- The balance is what the history says, less what was overwritten and more than
-- that by what others put in.
theorem history_balance (reachable : Reachable c s)
    (identify : Set.InjOn (Transaction.txid c) {tx | tx ∈ transactionsOn s s.bestChain})
    (few : ∀ tx ∈ transactionsOn s s.bestChain, tx.outputs.length ≤ 2^32) (fits : Fits s script) :
    (s.getBalance script).toNat + overChain c (overwritten c script) (entriesOn s s.bestChain) +
        outflow (s.walletTransactionHistory c script) =
      inflow (s.walletTransactionHistory c script) + overChain c (uncovered script) (entriesOn s s.bestChain) := by
  have valid := reached_valid reachable
  have tracks : Tracks c script {tx | tx ∈ transactionsOn s s.bestChain} s.utxoSet
      (s.bestChain.foldl (s.recordBlock c script) (∅,[])) (entriesOn s s.bestChain) :=
    tracks_replay identify few fits.outputs valid.bootstrap valid.replay fun _ member => member
  have balance : (s.getBalance script).toNat = total (ownValue script) s.utxoSet := UInt64.toNat_ofNat_of_lt' fits.balance
  have balanced := tracks.balanced
  unfold inflow outflow at balanced ⊢
  simp only [walletTransactionHistory,recorded_reverse,balance]
  exact balanced

theorem overwritten_none (history : Posted c posted utxoSet) (separate : Separate (creates c) posted)
    (indexed : ∀ entry ∈ posted, (made (creates c) entry).Nodup) : overChain c (overwritten c script) posted = 0 := by
  induction history with
  | nil => rfl
  | @post posted utxoSet entry history _ _ ih =>
    have before := ih separate.init fun entry member => indexed entry (List.mem_append_left _ member)
    have fresh := fresh_post history separate (indexed entry (by simp))
    have kept : overwritten c script utxoSet entry = 0 := replaced_fresh fresh
    rw [overChain] at before ⊢
    rw [history_along history,before,kept]

theorem reconciles_exact (reachable : Reachable c s)
    (identify : Set.InjOn (Transaction.txid c) {tx | tx ∈ transactionsOn s s.bestChain})
    (few : ∀ tx ∈ transactionsOn s s.bestChain, tx.outputs.length ≤ 2^32) (fits : Fits s script) :
    Reconciles c s script ↔ Balanced c s script := by
  have accounts := history_balance reachable identify few fits
  unfold Reconciles Balanced
  dsimp only
  omega

theorem reconciles_exact_payBlock : ∃ s : Blockchain, s.getBalance [9] = 10000000000 ∧
    outflow (s.walletTransactionHistory reference generatorAddress) = 10000000000 ∧
    Reconciles reference s generatorAddress := by
  have fed : (Runs.feed (Blockchain.addBlock reference) genesisState [earnBlock,payBlock]).map
      (fun run => (run.1.getBalance [9],outflow (run.1.walletTransactionHistory reference generatorAddress),
        decide (∀ x ∈ transactionsOn run.1 run.1.bestChain, ∀ y ∈ transactionsOn run.1 run.1.bestChain,
          x.txid reference = y.txid reference → x = y),
        decide (∀ tx ∈ transactionsOn run.1 run.1.bestChain, tx.outputs.length ≤ 2^32 ∧ outputTotal tx < 2^64),
        decide (total (ownValue generatorAddress) run.1.utxoSet < 2^64),
        decide (overChain reference (overwritten reference generatorAddress) (entriesOn run.1 run.1.bestChain) =
          overChain reference (uncovered generatorAddress) (entriesOn run.1 run.1.bestChain)))) =
      some (10000000000,10000000000,true,true,true,true) := by decide +kernel
  obtain ⟨⟨s,answers⟩,ran,facts⟩ := Option.map_eq_some_iff.mp fed
  simp only [Prod.mk.injEq,decide_eq_true_eq] at facts
  obtain ⟨received,sent,identify,each,small,balanced⟩ := facts
  have reachable : Reachable reference s := ⟨_,(Runs.feed_run ran).1⟩
  have reconciles := (reconciles_exact reachable (fun x first y second => identify x first y second)
    (fun tx member => (each tx member).1) ⟨fun tx member => (each tx member).2,small⟩).mpr balanced
  exact ⟨s,received,sent,reconciles⟩

-- Where no coinbase repeats a txid, only the coins of others are in the way.
theorem fresh_reconciles (reached : Reached c (CoinCreation.FreshStep c) s) (noCollision : CollisionFree c s)
    (fits : Fits s script) : Reconciles c s script ↔ overChain c (uncovered script) (entriesOn s s.bestChain) = 0 := by
  have coinbases := CoinCreation.reached_coinbases reached
  have valid := reached_valid reached
  have distinct := reached_distinct coinbases noCollision
  have lost : overChain c (overwritten c script) (entriesOn s s.bestChain) = 0 :=
    overwritten_none (reached_posted valid) (separate_distinct distinct) (CoinCreation.reached_indexed reached)
  have identify : Set.InjOn (Transaction.txid c) {tx | tx ∈ transactionsOn s s.bestChain} := by
    rw [← Function.comp_def,← List.map_map] at distinct
    exact fun x first y second => List.inj_on_of_nodup_map distinct first second
  have few : ∀ tx ∈ transactionsOn s s.bestChain, tx.outputs.length ≤ 2^32 := by
    intro tx member
    obtain ⟨entry,inside,rfl⟩ := List.mem_map.mp member
    exact CoinCreation.reached_few reached entry inside
  have reachable : Reachable c s := by
    obtain ⟨calls,path⟩ := reached
    exact ⟨calls,path.weaken fun _ _ _ => trivial⟩
  have accounts := history_balance reachable identify few fits
  unfold Reconciles
  dsimp only
  omega

-- The miner's second reward takes the place of the first, and the history lists both.
theorem repeatBlock_unreconciled : ∃ s, Reachable reference s ∧ Fits s [1] ∧ s.getBalance [1] = 100 ∧
    inflow (s.walletTransactionHistory reference [1]) = 200 ∧ ¬ Reconciles reference s [1] := by
  have fed : (Runs.feed (Blockchain.addBlock reference) genesisState [firstBlock,CoinCreation.repeatBlock]).map
      (fun run => (run.1.getBalance [1],inflow (run.1.walletTransactionHistory reference [1]),
        outflow (run.1.walletTransactionHistory reference [1]),
        decide (∀ tx ∈ transactionsOn run.1 run.1.bestChain, outputTotal tx < 2^64),
        decide (total (ownValue [1]) run.1.utxoSet < 2^64))) = some (100,200,0,true,true) := by decide +kernel
  obtain ⟨⟨s,answers⟩,ran,facts⟩ := Option.map_eq_some_iff.mp fed
  simp only [Prod.mk.injEq,decide_eq_true_eq] at facts
  obtain ⟨held,received,sent,each,small⟩ := facts
  refine ⟨s,⟨_,(Runs.feed_run ran).1⟩,⟨each,small⟩,held,received,?_⟩
  unfold Reconciles
  simp only [held,received,sent]
  decide

end BlindEye.Reconciliation
