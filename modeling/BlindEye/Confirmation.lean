import BlindEye.ChainState
import BlindEye.Node
import BlindEye.SpendOnce

namespace BlindEye.Confirmation
open AddBlock ChainState

variable {c : Crates} {s next : Blockchain} {block : Block} {chain : List Digest} {tx : Transaction} {utxoSet : UtxoSet}

def alreadyConfirmed : String := "Transaction is already confirmed on the chain"

-- Some block of the chain holds a transaction with this txid.
def ConfirmedOn (c : Crates) (s : Blockchain) (chain : List Digest) (txid : Digest) : Prop :=
  ∃ k ∈ chain, ∃ b, s.getBlock k = some b ∧ txid ∈ b.transactions.map (Transaction.txid c)

instance : Decidable (ConfirmedOn c s chain txid) :=
  inferInstanceAs (Decidable (∃ k ∈ chain, ∃ b ∈ s.getBlock k, txid ∈ b.transactions.map (Transaction.txid c)))

structure Faithful (c : Crates) (s : Blockchain) : Prop where
  contains : ∀ txid, s.containsTransaction c txid = true ↔ ConfirmedOn c s s.bestChain txid
  refusal : ∀ tx, Node.quoteFee c s tx = .error alreadyConfirmed → ConfirmedOn c s s.bestChain (tx.txid c)
  resubmit : ∀ tx, ¬ ConfirmedOn c s s.bestChain (tx.txid c) → Node.quoteFee c s tx = s.calculateTransactionFee c tx

-- A block that is written to the maps leaves no transaction off the best chain:
-- neither the transactions of the branch that it displaces, nor its own.
def LosesNothing (c : Crates) (s : Blockchain) (block : Block) : Prop :=
  Admitted c s block →
    (∀ chain, Adopts c s block chain → ∀ txid, ConfirmedOn c s s.bestChain txid →
      ConfirmedOn c (s.store c block) chain txid) ∧
    ((∀ chain, ¬ Adopts c s block chain) → ∀ tx ∈ block.transactions, ConfirmedOn c s s.bestChain (tx.txid c))

instance : Decidable (LosesNothing c s block) :=
  decidable_of_iff (Admitted c s block →
      (∀ chain, Adopts c s block chain → ∀ k ∈ s.bestChain, ∀ b ∈ s.getBlock k, ∀ tx ∈ b.transactions,
        ConfirmedOn c (s.store c block) chain (tx.txid c)) ∧
      ((∀ chain, Adopts c s block chain → False) → ∀ tx ∈ block.transactions, ConfirmedOn c s s.bestChain (tx.txid c))) (by
    apply imp_congr_right
    intro _
    apply and_congr_left
    intro _
    constructor
    · rintro kept chain adopts _ ⟨k,member,b,stored,listed⟩
      obtain ⟨tx,inside,rfl⟩ := List.mem_map.mp listed
      exact kept chain adopts k member b stored tx inside
    · intro kept chain adopts k member b stored tx inside
      exact kept chain adopts _ ⟨k,member,b,stored,List.mem_map_of_mem inside⟩)

theorem contains_exact : s.containsTransaction c txid = true ↔
    ∃ k b, s.getBlock k = some b ∧ txid ∈ b.transactions.map (Transaction.txid c) := by
  unfold Blockchain.containsTransaction
  rw [FiniteMap.any_exact]
  simp only [List.any_eq_true,beq_iff_eq,List.mem_map]
  rfl

theorem confirmed_contained (confirmed : ConfirmedOn c s chain txid) : s.containsTransaction c txid = true := by
  obtain ⟨k,_,b,stored,inside⟩ := confirmed
  exact contains_exact.mpr ⟨k,b,stored,inside⟩

theorem confirmed_grows (grows : Grows s next) (stored : Stored s chain) :
    ConfirmedOn c next chain txid ↔ ConfirmedOn c s chain txid := by
  unfold ConfirmedOn
  constructor
  · intro confirmed
    obtain ⟨k,member,b,found,inside⟩ := confirmed
    exact ⟨k,member,b,(grows.same stored k member).symm.trans found,inside⟩
  · intro confirmed
    obtain ⟨k,member,b,found,inside⟩ := confirmed
    exact ⟨k,member,b,grows.blocks k b found,inside⟩

theorem inputs_text {inputs : List TxInput} (failed : inputs.foldlM (utxoSet.addInputValue c) total = .error text) :
    text ≠ alreadyConfirmed := by
  induction inputs generalizing total with
  | nil => cases failed
  | cons input rest ih =>
    rw [List.foldlM_cons] at failed
    cases first : utxoSet.addInputValue c total input with
    | ok sum =>
      rw [first] at failed
      exact ih failed
    | error text' =>
      rw [first] at failed
      cases failed
      unfold UtxoSet.addInputValue at first
      split at first
      · cases first; decide
      · split at first
        · cases first; decide
        · split at first
          · cases first; decide
          · split at first
            · cases first; decide
            · cases first

-- No check of the fee answers with the text of a confirmed transaction.
theorem fee_text (failed : validateTransactionAgainstUtxoSet c tx utxoSet = .error text) : text ≠ alreadyConfirmed := by
  unfold validateTransactionAgainstUtxoSet at failed
  cases valid : tx.validate with
  | error text' =>
    rw [valid] at failed
    cases failed
    unfold Transaction.validate at valid
    split at valid
    · cases valid; decide
    · split at valid
      · cases valid; decide
      · split at valid
        · cases valid; decide
        · cases valid
  | ok =>
    rw [valid,Fallible.ok_bind] at failed
    cases summed : tx.inputs.foldlM (utxoSet.addInputValue c) 0 with
    | error text' =>
      rw [summed] at failed
      cases failed
      exact inputs_text summed
    | ok total =>
      rw [summed,Fallible.ok_bind] at failed
      split at failed
      · cases failed; decide
      · cases failed

theorem faithful_exact : Faithful c s ↔
    ∀ txid, s.containsTransaction c txid = true → ConfirmedOn c s s.bestChain txid := by
  constructor
  · exact fun faithful txid => (faithful.contains txid).mp
  · intro scanned
    refine ⟨fun txid => ⟨scanned txid,confirmed_contained⟩,?_,?_⟩
    · intro tx refused
      unfold Node.quoteFee at refused
      split at refused
      · rename_i found; exact scanned _ found
      · exact absurd rfl (fee_text refused)
    · intro tx lost
      exact if_neg fun found => lost (scanned _ found)

theorem new_faithful (c : Crates) : Faithful c (.new c) := by
  refine faithful_exact.mpr fun txid found => ?_
  obtain ⟨k,b,stored,inside⟩ := contains_exact.mp found
  rw [getBlock_new] at stored
  split at stored
  · rename_i root
    cases stored
    subst root
    exact ⟨_,List.mem_singleton_self _,_,(new_valid c).genesis,inside⟩
  · cases stored

-- The scan of a state that has one more block.
theorem contains_store (fresh : block.hash c ∉ s.blocks) : (s.store c block).containsTransaction c txid = true ↔
    s.containsTransaction c txid = true ∨ txid ∈ block.transactions.map (Transaction.txid c) := by
  simp only [contains_exact]
  constructor
  · intro found
    obtain ⟨k,b,stored,inside⟩ := found
    rcases store_stored stored with old | ⟨_,rfl⟩
    · exact .inl ⟨k,b,old,inside⟩
    · exact .inr inside
  · rintro (⟨k,b,stored,inside⟩ | inside)
    · exact ⟨k,b,(store_grows fresh).blocks k b stored,inside⟩
    · exact ⟨_,block,getBlock_store_self,inside⟩

theorem kept_faithful (valid : Valid c s) (faithful : Faithful c s) (admitted : Admitted c s block)
    (kept : ∀ chain, ¬ Adopts c s block chain) :
    Faithful c (s.store c block) ↔ LosesNothing c s block := by
  obtain ⟨_,_,branch,_,_⟩ := valid.tip
  have same : ∀ txid, ConfirmedOn c (s.store c block) s.bestChain txid ↔ ConfirmedOn c s s.bestChain txid :=
    fun _ => confirmed_grows (store_grows admitted.fresh) (branch_stored branch)
  rw [faithful_exact]
  constructor
  · intro scanned _
    refine ⟨fun chain adopts => absurd adopts (kept chain),fun _ tx member => (same _).mp (scanned _ ?_)⟩
    exact (contains_store admitted.fresh).mpr (.inr (List.mem_map_of_mem member))
  · intro safe txid found
    apply (same txid).mpr
    rcases (contains_store admitted.fresh).mp found with old | new
    · exact (faithful.contains txid).mp old
    · obtain ⟨tx,member,rfl⟩ := List.mem_map.mp new
      exact (safe admitted).2 kept tx member

theorem adopted_faithful (faithful : Faithful c s) (adopts : Adopts c s block chain) :
    Faithful c (adopt (s.store c block) block chain ledger) ↔ LosesNothing c s block := by
  have fresh := adopts.admitted.fresh
  have branch := path_branch.mp adopts.path
  rw [faithful_exact]
  change (∀ txid, (s.store c block).containsTransaction c txid = true → ConfirmedOn c (s.store c block) chain txid) ↔ _
  constructor
  · intro scanned _
    refine ⟨fun other adopts' txid confirmed => ?_,fun kept => absurd adopts (kept chain)⟩
    cases branch.unique (path_branch.mp adopts'.path)
    exact scanned txid ((contains_store fresh).mpr (.inl (confirmed_contained confirmed)))
  · intro safe txid found
    rcases (contains_store fresh).mp found with old | new
    · exact (safe adopts.admitted).1 chain adopts txid ((faithful.contains txid).mp old)
    · exact ⟨block.hash c,List.mem_of_getLast? branch.last,block,getBlock_store_self,new⟩

theorem step_faithful (valid : Valid c s) (faithful : Faithful c s) (step : Step c s block next answer) :
    Faithful c next ↔ LosesNothing c s block := by
  rcases step_adopts step with ⟨chain,ledger,adopted,rfl⟩ | ⟨kept,_⟩
  · exact adopted_faithful faithful adopted
  · have refused : ¬ Admitted c s block → (Faithful c s ↔ LosesNothing c s block) := fun refused =>
      ⟨fun _ admitted => absurd admitted refused,fun _ => faithful⟩
    cases step with
    | known known => exact refused fun admitted => admitted.fresh known
    | orphan _ high missing => exact refused fun admitted => missing (admitted.parent high)
    | refused _ _ failed =>
      refine refused fun admitted => ?_
      rw [admitted.checked] at failed
      cases failed
    | adrift admitted | invalid admitted | kept admitted => exact kept_faithful valid faithful admitted kept
    | adopted admitted branch built longer =>
      exact absurd ⟨admitted,path_branch.mpr branch,⟨_,built⟩,longer⟩ (kept _)

theorem confirmation_exact (path : Runs.Run (Blockchain.addBlock c) (fun _ _ => True) (.new c) calls s) :
    (∀ earlier later mid, calls = earlier ++ later →
      Runs.Run (Blockchain.addBlock c) (fun _ _ => True) (.new c) earlier mid → Faithful c mid) ↔
    Runs.Run (Blockchain.addBlock c) (LosesNothing c) (.new c) calls s := by
  apply Runs.run_exact (motive := fun _ s => Faithful c s) (new_faithful c) _ path
  intro calls s block next answer run faithful ran
  exact step_faithful (reached_valid ⟨calls,run⟩) faithful (addBlock_sound ran)

-- The twin of `earnBlock` holds the same coinbase, and with a payment on it becomes the best branch.
def twinBlock : Block := minedBlock genesisState.genesisHash 1 [earnedCoinbase] Protocol.defaultBits 1
def twinHeir : Block := blockOn (twinBlock.hash reference) 2 [createCoinbaseTransaction 2 100 [2],earnedPayment]

theorem confirmation_exact_twin : ∃ calls s, Runs.Run (Blockchain.addBlock reference) (LosesNothing reference)
    genesisState calls s ∧ earnBlock.hash reference ∈ s.blocks ∧ earnBlock.hash reference ∉ s.bestChain ∧
    s.containsTransaction reference (earnedCoinbase.txid reference) = true ∧ Faithful reference s := by
  have fed : (Runs.feed (fun s block => if LosesNothing reference s block then s.addBlock reference block else none)
      genesisState [earnBlock,twinBlock,twinHeir]).map (fun pair =>
        decide (earnBlock.hash reference ∈ pair.1.blocks ∧ earnBlock.hash reference ∉ pair.1.bestChain ∧
          pair.1.containsTransaction reference (earnedCoinbase.txid reference) = true)) = some true := by
    decide +kernel
  obtain ⟨⟨s,answers⟩,ran,facts⟩ := Option.map_eq_some_iff.mp fed
  obtain ⟨stored,displaced,found⟩ := of_decide_eq_true facts
  have allowed := (Runs.feed_run ran).1.guarded
  have path := allowed.weaken fun _ _ _ => trivial
  have faithful := (confirmation_exact path).mpr allowed _ [] s (List.append_nil _).symm path
  exact ⟨_,s,allowed,stored,displaced,found,faithful⟩

-- Two blocks on `earnBlock` that displace `payBlock`, and with it the payment.
def calmBlock : Block := blockOn (earnBlock.hash reference) 2 [createCoinbaseTransaction 2 100 [5]]
def calmHeir : Block := blockOn (calmBlock.hash reference) 3 [createCoinbaseTransaction 3 100 [6]]

theorem payment_shut_out : ∃ s, Reachable reference s ∧
    s.containsTransaction reference (earnedPayment.txid reference) = true ∧
    ¬ ConfirmedOn reference s s.bestChain (earnedPayment.txid reference) ∧
    s.validateTransaction reference earnedPayment = .ok () ∧
    Node.quoteFee reference s earnedPayment = .error alreadyConfirmed := by
  have fed : (Runs.feed (Blockchain.addBlock reference) genesisState
      [earnBlock,payBlock,calmBlock,calmHeir]).map (fun pair =>
        (pair.1.containsTransaction reference (earnedPayment.txid reference),
          decide (ConfirmedOn reference pair.1 pair.1.bestChain (earnedPayment.txid reference)),
          pair.1.validateTransaction reference earnedPayment,
          Node.quoteFee reference pair.1 earnedPayment)) =
      some (true,false,.ok (),.error alreadyConfirmed) := by decide +kernel
  obtain ⟨⟨s,answers⟩,ran,equal⟩ := Option.map_eq_some_iff.mp fed
  simp only [Prod.mk.injEq,decide_eq_false_iff_not] at equal
  obtain ⟨found,lost,spendable,refused⟩ := equal
  exact ⟨s,⟨_,(Runs.feed_run ran).1⟩,found,lost,spendable,refused⟩

end BlindEye.Confirmation
