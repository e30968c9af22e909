import BlindEye.CoinHistory

namespace BlindEye.CoinOrigin
open ChainState CoinHistory SpendHistory LedgerRules FiniteMap

variable {c : Crates} {s : Blockchain} {tx : Transaction} {known wider : Set Transaction} {utxoSet later : UtxoSet}
  {chain : List Digest} {o : OutPoint} {utxo utxo' : Utxo}

-- Every coin of the ledger is an output of one of these transactions.
def Origin (c : Crates) (known : Set Transaction) (utxoSet : UtxoSet) : Prop :=
  ∀ o utxo, utxoSet.lookup o = some utxo →
    ∃ tx ∈ known, ∃ height, (insertAll ∅ (tx.created c height)).lookup o = some utxo

def stored (s : Blockchain) : Set Transaction := {tx | ∃ k b, s.getBlock k = some b ∧ tx ∈ b.transactions}

def numbered (c : Crates) (tx : Transaction) : List (OutPoint × TxOutput) :=
  tx.outputs.zipIdx.map fun (output,vout) => (⟨tx.txid c,UInt32.ofNat vout⟩,output)

-- The outpoints of a transaction's outputs.
def outpoints (c : Crates) (tx : Transaction) : List OutPoint := (numbered c tx).map Prod.fst

theorem Origin.mono (origin : Origin c known utxoSet) (subset : known ⊆ wider) : Origin c wider utxoSet := by
  intro o utxo found
  obtain ⟨tx,member,height,made⟩ := origin o utxo found
  exact ⟨tx,subset member,height,made⟩

theorem created_numbered (c : Crates) (tx : Transaction) (height : UInt64) : tx.created c height =
    (numbered c tx).map fun entry => (entry.1,⟨entry.2,height,tx.inputs.isEmpty⟩) := by
  unfold Transaction.created numbered
  rw [List.map_map]
  rfl

-- What a transaction makes under an outpoint does not depend on the height,
-- except for the height that is recorded.
theorem created_output (made : (insertAll ∅ (tx.created c height)).lookup o = some utxo) :
    (insertAll ∅ (numbered c tx)).lookup o = some utxo.output ∧ o.txid = tx.txid c := by
  rw [created_numbered,lookup_insertAll_map fun output => (⟨output,height,tx.inputs.isEmpty⟩ : Utxo)] at made
  obtain ⟨output,found,rfl⟩ := Option.map_eq_some_iff.mp made
  refine ⟨found,?_⟩
  obtain ⟨pair,_,equal⟩ := List.mem_map.mp (entry_of_insertAll found)
  cases equal
  rfl

theorem outpoints_txid (made : o ∈ outpoints c tx) : o.txid = tx.txid c := by
  obtain ⟨entry,member,rfl⟩ := List.mem_map.mp made
  obtain ⟨pair,_,rfl⟩ := List.mem_map.mp member
  rfl

theorem origin_output (identify : Set.InjOn (Transaction.txid c) known) (origin : Origin c known utxoSet)
    (origin' : Origin c known later) (found : utxoSet.lookup o = some utxo) (found' : later.lookup o = some utxo') :
    utxo.output = utxo'.output := by
  obtain ⟨tx,member,height,made⟩ := origin o utxo found
  obtain ⟨tx',member',height',made'⟩ := origin' o utxo' found'
  obtain ⟨output,txid⟩ := created_output made
  obtain ⟨output',txid'⟩ := created_output made'
  obtain rfl := identify member member' (txid.symm.trans txid')
  exact Option.some.inj (output.symm.trans output')

theorem revalidates (identify : Set.InjOn (Transaction.txid c) known) (origin : Origin c known utxoSet)
    (origin' : Origin c known later) (paid : validateTransactionAgainstUtxoSet c tx utxoSet = .ok fee)
    (unspent : ∀ o ∈ tx.spends, o ∈ later) : validateTransactionAgainstUtxoSet c tx later = .ok fee := by
  obtain ⟨valid,spendable,fits,balance⟩ := validateTransaction_exact.mp paid
  have values : inputTotal later tx = inputTotal utxoSet tx := by
    unfold inputTotal
    rw [List.map_congr_left fun o member => ?_]
    obtain ⟨input,inside,rfl⟩ := List.mem_map.mp member
    obtain ⟨utxo,found,_⟩ := spendable input inside
    obtain ⟨utxo',found'⟩ := Finmap.mem_iff.mp (unspent _ member)
    simp only [valueAt,found,found',Option.map_some,coinValue,origin_output identify origin origin' found found']
  refine validateTransaction_exact.mpr ⟨valid,?_,by rw [values]; exact fits,by rw [values]; exact balance⟩
  intro input inside
  obtain ⟨utxo,found,owner⟩ := spendable input inside
  obtain ⟨utxo',found'⟩ := Finmap.mem_iff.mp (unspent _ (List.mem_map_of_mem inside))
  exact ⟨utxo',found',by rw [owner,origin_output identify origin origin' found found']⟩

theorem replay_origin (bootstrap : s.bootstrapUtxos = ∅) (built : s.buildUtxoStateForChain c chain = .ok utxoSet) :
    Origin c (stored s) utxoSet := by
  intro o utxo found
  obtain ⟨_,⟨tx,height⟩,_,split,made,_⟩ := (history_lookup (replay_posted bootstrap built)).mp found
  have member : (tx,height) ∈ entriesOn s chain := split ▸ by simp
  obtain ⟨k,_,b,here,transaction⟩ := mem_transactionsOn.mp (List.mem_map_of_mem member)
  exact ⟨tx,⟨k,b,here,transaction⟩,height,made⟩

theorem mem_applyTransaction : o ∈ applyTransaction c tx utxoSet height ↔
    (o ∈ utxoSet ∧ o ∉ tx.spends) ∨ o ∈ outpoints c tx := by
  have keys : (tx.created c height).map Prod.fst = outpoints c tx := by
    rw [created_numbered,List.map_map]
    rfl
  rw [applyTransaction,mem_insertAll,mem_eraseAll,keys]

theorem Origin.apply (origin : Origin c known utxoSet) (member : tx ∈ known) :
    Origin c known (applyTransaction c tx utxoSet height) := by
  intro o utxo found
  rw [applyTransaction,lookup_insertAll] at found
  rcases Option.or_eq_some_iff.mp found with new | ⟨_,old⟩
  · exact ⟨tx,member,height,new⟩
  · have kept : o ∉ tx.spends := by
      intro spent
      rw [lookup_eraseAll_of_mem spent] at old
      cases old
    rw [lookup_eraseAll_of_notMem kept] at old
    exact origin o utxo old

end BlindEye.CoinOrigin
