import BlindEye.ChainState
import BlindEye.LedgerRules
import BlindEye.Library.SpendHistory

namespace BlindEye.CoinHistory
open AddBlock ChainState LedgerRules SpendHistory FiniteMap

variable {c : Crates} {s next : Blockchain} {block : Block} {chain : List Digest} {utxoSet after : UtxoSet}

-- A transaction of a chain, with the height that its outputs are recorded under.
abbrev Entry := Transaction × UInt64
def spends (entry : Entry) : List OutPoint := entry.1.spends
def creates (c : Crates) (entry : Entry) : List (OutPoint × Utxo) := entry.1.created c entry.2
abbrev Posted (c : Crates) (posted : List Entry) (utxoSet : UtxoSet) : Prop := History spends (creates c) posted utxoSet

def entriesOf (block : Block) : List Entry := block.transactions.map fun tx => (tx,block.header.height)
def entriesOn (s : Blockchain) (chain : List Digest) : List Entry :=
  chain.flatMap fun k => ((s.getBlock k).map entriesOf).getD []
def transactionsOn (s : Blockchain) (chain : List Digest) : List Transaction := (entriesOn s chain).map Prod.fst

theorem mem_transactionsOn : tx ∈ transactionsOn s chain ↔
    ∃ k ∈ chain, ∃ b, s.getBlock k = some b ∧ tx ∈ b.transactions := by
  constructor
  · intro member
    obtain ⟨entry,inside,rfl⟩ := List.mem_map.mp member
    obtain ⟨k,at_,here⟩ := List.mem_flatMap.mp inside
    cases stored : s.getBlock k with
    | none => simp [stored] at here
    | some b =>
      simp only [stored,Option.map_some,Option.getD_some] at here
      obtain ⟨tx,transaction,rfl⟩ := List.mem_map.mp here
      exact ⟨k,at_,b,stored,transaction⟩
  · intro found
    obtain ⟨k,at_,b,stored,transaction⟩ := found
    refine List.mem_map.mpr ⟨(tx,b.header.height),List.mem_flatMap.mpr ⟨k,at_,?_⟩,rfl⟩
    rw [stored]
    exact List.mem_map_of_mem transaction

variable {posted : List Entry}

-- What is checked of a transaction before the ledger takes it.
def Taken (c : Crates) (utxoSet : UtxoSet) (tx : Transaction) : Prop :=
  tx.inputs = [] ∨ ∃ fee, validateTransactionAgainstUtxoSet c tx utxoSet = .ok fee

theorem taken_present (taken : Taken c utxoSet tx) : tx.spends.Nodup ∧ ∀ o ∈ tx.spends, o ∈ utxoSet := by
  rcases taken with minted | ⟨fee,paid⟩
  · have spendless : tx.spends = [] := by simp [Transaction.spends,minted]
    rw [spendless]
    exact ⟨List.nodup_nil,fun o member => absurd member List.not_mem_nil⟩
  · exact paid_present paid

-- The rule of a block: `motive` speaks of the ledger and of the transactions
-- that it has taken.
theorem block_rule {motive : UtxoSet → List Transaction → Prop} (start : motive utxoSet [])
    (step : ∀ before tx later ledger, block.transactions = before ++ tx :: later → motive ledger before →
      Taken c ledger tx → motive (applyTransaction c tx ledger block.header.height) (before ++ [tx]))
    (applied : applyBlockToUtxoSet c block utxoSet = .ok after) : motive after block.transactions := by
  obtain ⟨coinbase,payments,mid,fees,transactions,first,rest,_⟩ := applyBlock_exact.mp applied
  obtain ⟨noInputs,_,rfl⟩ := applyCoinbase_exact.mp first
  have minted : motive (applyTransaction c coinbase utxoSet block.header.height) [coinbase] :=
    step [] coinbase payments utxoSet transactions start (.inl noInputs)
  rw [transactions]
  refine Fallible.fold_invariant (motive := fun state done => motive state.1 (coinbase :: done)) minted ?_ rest
  intro before tx later state state' split now paid
  obtain ⟨_,⟨fee,valid,_⟩,moved⟩ := applyPayment_exact.mp paid
  rw [moved]
  exact step (coinbase :: before) tx later state.1 (by rw [transactions,split,List.cons_append]) now (.inr ⟨fee,valid⟩)

theorem block_posted (history : Posted c posted utxoSet) (applied : applyBlockToUtxoSet c block utxoSet = .ok after) :
    Posted c (posted ++ entriesOf block) after := by
  refine block_rule (motive := fun ledger done => Posted c (posted ++ done.map fun tx => (tx,block.header.height)) ledger)
    (by simpa using history) ?_ applied
  intro before tx later ledger _ now taken
  obtain ⟨distinct,present⟩ := taken_present taken
  rw [List.map_append,← List.append_assoc]
  exact .post now distinct present

theorem entries_snoc (stored : s.getBlock k = some b) : entriesOn s (chain ++ [k]) = entriesOn s chain ++ entriesOf b := by
  simp [entriesOn,List.flatMap_append,stored]

theorem replay_posted (bootstrap : s.bootstrapUtxos = ∅) (built : s.buildUtxoStateForChain c chain = .ok utxoSet) :
    Posted c (entriesOn s chain) utxoSet := by
  refine Fallible.fold_invariant (motive := fun utxoSet done => Posted c (entriesOn s done) utxoSet) ?_ ?_ built
  · rw [bootstrap]
    exact .nil
  · intro before k later utxoSet next _ now step
    obtain ⟨b,stored,applied⟩ := applyStored_exact.mp step
    rw [entries_snoc stored]
    exact block_posted now applied

-- The first outpoint stands at a fixed place in the bytes of a payment.
theorem serialize_first {tx : Transaction} (inputs : tx.inputs = input :: others) : ∃ rest, tx.serialize =
    (u32Bytes tx.version ++ u32Bytes (UInt32.ofNat tx.inputs.length)) ++
      (input.previousOutput.txid.bytes ++ (u32Bytes input.previousOutput.vout ++ rest)) := by
  refine ⟨u32Bytes (UInt32.ofNat input.scriptSig.length) ++ input.scriptSig ++ u32Bytes input.sequence ++
    others.flatMap TxInput.serialize ++ u32Bytes (UInt32.ofNat tx.outputs.length) ++
    tx.outputs.flatMap TxOutput.serialize ++ u64Bytes tx.lockTime,?_⟩
  unfold Transaction.serialize
  rw [inputs,List.flatMap_cons,TxInput.serialize]
  simp only [List.append_assoc]

theorem serialize_outpoint {x y : Transaction} (first : x.inputs = i :: others) (second : y.inputs = j :: others')
    (equal : x.serialize = y.serialize) : i.previousOutput = j.previousOutput := by
  obtain ⟨rest,bytes⟩ := serialize_first first
  obtain ⟨rest',bytes'⟩ := serialize_first second
  rw [bytes,bytes'] at equal
  have payload := (List.append_inj equal (by simp)).2
  obtain ⟨txid,payload⟩ := List.append_inj payload (i.previousOutput.txid.size.trans j.previousOutput.txid.size.symm)
  have vout := (List.append_inj payload (by simp)).1
  have same : i.previousOutput.txid = j.previousOutput.txid := Digest.ext_bytes txid
  have index : i.previousOutput.vout = j.previousOutput.vout := u32Bytes_injective vout
  cases i with | mk x _ _ => cases j with | mk y _ _ => cases x; cases y; simp_all

-- No coinbase shares its txid with another transaction of the list.
def CoinbasesUnique (c : Crates) (posted : List Entry) : Prop :=
  posted.Pairwise fun earlier later => earlier.1.inputs = [] ∨ later.1.inputs = [] →
    earlier.1.txid c ≠ later.1.txid c

def serializations (posted : List Entry) : Set (List UInt8) := {bytes | ∃ entry ∈ posted, bytes = entry.1.serialize}

theorem separate_distinct (distinct : (posted.map fun entry => entry.1.txid c).Nodup) : Separate (creates c) posted := by
  have outpoints : ∀ entry k, k ∈ made (creates c) entry → k.txid = entry.1.txid c := by
    intro entry k makes
    obtain ⟨pair,member,rfl⟩ := List.mem_map.mp makes
    obtain ⟨⟨output,vout⟩,_,rfl⟩ := List.mem_map.mp member
    rfl
  refine (List.pairwise_map.mp distinct).imp fun {earlier later} differ k first second => differ ?_
  rw [← outpoints earlier k first,← outpoints later k second]

theorem txids_distinct (history : Posted c posted utxoSet) (unique : CoinbasesUnique c posted)
    (injective : Set.InjOn c.blake3 (serializations posted)) : (posted.map fun entry => entry.1.txid c).Nodup := by
  induction history with
  | nil => exact List.nodup_nil
  | @post posted utxoSet entry history distinct present ih =>
    have before := ih (List.pairwise_append.mp unique).1 (injective.mono fun bytes inside => by
      obtain ⟨old,member,equal⟩ := inside
      exact ⟨old,List.mem_append_left _ member,equal⟩)
    rw [List.map_append]
    refine List.nodup_append.mpr ⟨before,by simp,?_⟩
    intro txid old txid' new equal
    obtain ⟨earlier,member,rfl⟩ := List.mem_map.mp old
    obtain rfl : txid' = entry.1.txid c := by simpa using new
    by_cases coinbase : earlier.1.inputs = [] ∨ entry.1.inputs = []
    · exact (List.pairwise_append.mp unique).2.2 earlier member entry (by simp) coinbase equal
    -- two payments: their first inputs name one outpoint, which the earlier one consumed
    · rw [not_or] at coinbase
      obtain ⟨i,others,first⟩ := List.exists_cons_of_ne_nil coinbase.1
      obtain ⟨j,others',second⟩ := List.exists_cons_of_ne_nil coinbase.2
      have bytes := injective ⟨earlier,List.mem_append_left _ member,rfl⟩ ⟨entry,by simp,rfl⟩ equal
      have same := serialize_outpoint first second bytes
      have spent : i.previousOutput ∈ posted.flatMap spends :=
        List.mem_flatMap.mpr ⟨earlier,member,by simp [spends,Transaction.spends,first]⟩
      have stored : j.previousOutput ∈ utxoSet := present _ (by simp [spends,Transaction.spends,second])
      exact spent_gone history (separate_distinct before) _ spent (same ▸ stored)

theorem entries_grows (grows : Grows s next) (stored : Stored s chain) : entriesOn next chain = entriesOn s chain := by
  unfold entriesOn
  rw [List.flatMap_congr fun k member => ?_]
  rw [grows.same stored k member]

-- On a chain that becomes the best one, no coinbase repeats a txid.
def CoinbaseFresh (c : Crates) (s : Blockchain) (block : Block) : Prop :=
  ∀ chain, Adopts c s block chain → CoinbasesUnique c (entriesOn (s.store c block) chain)

instance : Decidable (CoinbasesUnique c posted) := inferInstanceAs (Decidable (posted.Pairwise _))

instance : Decidable (CoinbaseFresh c s block) :=
  inferInstanceAs (Decidable (∀ chain, Adopts c s block chain → CoinbasesUnique c (entriesOn (s.store c block) chain)))

-- BLAKE3 tells apart the transactions of all stored blocks.
def CollisionFree (c : Crates) (s : Blockchain) : Prop :=
  Set.InjOn c.blake3 {bytes | ∃ k b, s.getBlock k = some b ∧ ∃ tx ∈ b.transactions, bytes = tx.serialize}

theorem collisionFree_run (path : Runs.Run (Blockchain.addBlock c) meets (.new c) calls s)
    (injective : ∀ x ∈ Blockchain.genesisTx :: (calls.map Prod.fst).flatMap Block.transactions,
      ∀ y ∈ Blockchain.genesisTx :: (calls.map Prod.fst).flatMap Block.transactions,
        c.blake3 x.serialize = c.blake3 y.serialize → x.serialize = y.serialize) : CollisionFree c s := by
  have delivered : ∀ k b, s.getBlock k = some b → ∀ tx ∈ b.transactions,
      tx ∈ Blockchain.genesisTx :: (calls.map Prod.fst).flatMap Block.transactions := by
    intro k b stored tx member
    rcases run_stored path k b stored with rfl | call
    · exact List.mem_cons.mpr (.inl (List.mem_singleton.mp member))
    · exact List.mem_cons.mpr (.inr (List.mem_flatMap.mpr ⟨b,call,member⟩))
  intro x ⟨k,b,stored,tx,member,first⟩ y ⟨k',b',stored',tx',member',second⟩ equal
  subst first second
  exact injective tx (delivered k b stored tx member) tx' (delivered k' b' stored' tx' member') equal

theorem new_entries (c : Crates) :
    entriesOn (.new c) (Blockchain.new c).bestChain = [(Blockchain.genesisTx,0)] := by
  have genesis : (Blockchain.new c).getBlock (Blockchain.new c).genesisHash =
      some (Blockchain.createGenesisBlock c) := (new_valid c).genesis
  change entriesOn (.new c) [(Blockchain.new c).genesisHash] = _
  simp [entriesOn,genesis,entriesOf,Blockchain.createGenesisBlock,Block.withBits]

theorem new_unique (c : Crates) : CoinbasesUnique c (entriesOn (.new c) (Blockchain.new c).bestChain) := by
  rw [new_entries]
  exact List.pairwise_singleton _ _

theorem reached_unique (reached : Reached c (CoinbaseFresh c) s) : CoinbasesUnique c (entriesOn s s.bestChain) := by
  refine reached_best (motive := fun s chain => CoinbasesUnique c (entriesOn s chain)) (new_unique c) ?_
    (fun _ _ chain fresh adopts => fresh chain adopts) reached
  intro s next chain grows stored unique
  rw [entries_grows grows stored]
  exact unique

theorem chain_serializations (noCollision : CollisionFree c s) :
    Set.InjOn c.blake3 (serializations (entriesOn s chain)) := by
  apply noCollision.mono
  intro bytes ⟨entry,member,equal⟩
  obtain ⟨k,_,b,stored,transaction⟩ := mem_transactionsOn.mp (List.mem_map_of_mem member)
  exact ⟨k,b,stored,entry.1,transaction,equal⟩

theorem reached_posted (valid : Valid c s) : Posted c (entriesOn s s.bestChain) s.utxoSet :=
  replay_posted valid.bootstrap valid.replay

theorem reached_distinct (reached : Reached c (CoinbaseFresh c) s) (noCollision : CollisionFree c s) :
    ((entriesOn s s.bestChain).map fun entry => entry.1.txid c).Nodup :=
  txids_distinct (reached_posted (reached_valid reached)) (reached_unique reached) (chain_serializations noCollision)

-- The ledger of a reached state, outpoint by outpoint: it holds the output of
-- the last transaction of the best chain that creates the outpoint, unless a
-- later one spends it.
theorem unspent_exact (reached : Reachable c s) : s.utxoSet.lookup o = some utxo ↔
    ∃ before tx height later, entriesOn s s.bestChain = before ++ (tx,height) :: later ∧
      (insertAll ∅ (tx.created c height)).lookup o = some utxo ∧
      ∀ entry ∈ later, o ∉ entry.1.spends ∧ o ∉ (entry.1.created c entry.2).map Prod.fst := by
  rw [history_lookup (reached_posted (reached_valid reached))]
  constructor
  · rintro ⟨before,⟨tx,height⟩,later,chain⟩
    exact ⟨before,tx,height,later,chain⟩
  · rintro ⟨before,tx,height,later,chain⟩
    exact ⟨before,(tx,height),later,chain⟩

-- The coinbase of `earnBlock` is spent on this chain, and what the payment
-- creates is held.
theorem unspent_exact_payBlock : ∃ s, Reachable reference s ∧
    (s.utxoSet.lookup ⟨earnedCoinbase.txid reference,0⟩).isNone ∧
    ∃ before tx height later, entriesOn s s.bestChain = before ++ (tx,height) :: later ∧
      (insertAll ∅ (tx.created reference height)).lookup ⟨earnedPayment.txid reference,0⟩ =
        some ⟨⟨10000000000,[9]⟩,2,false⟩ ∧
      ∀ entry ∈ later, (⟨earnedPayment.txid reference,0⟩ : OutPoint) ∉ entry.1.spends ∧
        ⟨earnedPayment.txid reference,0⟩ ∉ (entry.1.created reference entry.2).map Prod.fst := by
  have fed : (Runs.feed (Blockchain.addBlock reference) genesisState [earnBlock,payBlock]).map (fun pair =>
      (decide (pair.1.utxoSet.lookup ⟨earnedCoinbase.txid reference,0⟩).isNone,
        pair.1.utxoSet.lookup ⟨earnedPayment.txid reference,0⟩)) =
      some (true,some ⟨⟨10000000000,[9]⟩,2,false⟩) := by decide +kernel
  obtain ⟨⟨s,answers⟩,ran,equal⟩ := Option.map_eq_some_iff.mp fed
  obtain ⟨spent,held⟩ := Prod.mk.inj equal
  have reached : Reachable reference s := ⟨_,(Runs.feed_run ran).1⟩
  exact ⟨s,reached,of_decide_eq_true spent,(unspent_exact reached).mp held⟩

end BlindEye.CoinHistory
