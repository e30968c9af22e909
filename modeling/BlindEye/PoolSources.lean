import BlindEye.CoinOrigin
import BlindEye.PoolInvariants

namespace BlindEye.PoolSources
open AddBlock ChainState MempoolRules SharedTurns CoinOrigin PoolInvariants LedgerRules

variable {c : Crates} {x next : SharedNode} {t : Turn} {calls : List (Turn × Answer)} {known : Set Transaction}
  {s after : Blockchain} {block : Block} {tx : Transaction} {utxoSet : UtxoSet}

-- The lock sections of submit_transaction and submit_block.
def Submits : Turn → Prop
  | .quote _ => True
  | .enter _ _ _ => True
  | .submitBlock _ => True
  | .resetBlockchain => False
  | .resetMempool => False

def brings : Turn → List Transaction
  | .submitBlock block => block.transactions
  | _ => []

-- The transactions of genesis and of every block that was submitted.
def delivered (calls : List (Turn × Answer)) : Set Transaction :=
  {tx | tx ∈ Blockchain.genesisTx :: (calls.map Prod.fst).flatMap brings}

-- The txid tells these transactions apart.
def Identified (c : Crates) (calls : List (Turn × Answer)) : Prop := Set.InjOn (Transaction.txid c) (delivered calls)

-- The fee was computed on a ledger made of the known transactions.
def Backed (c : Crates) (known : Set Transaction) (tx : Transaction) (feePaid : UInt64) : Prop :=
  ∃ utxoSet, Origin c known utxoSet ∧ validateTransactionAgainstUtxoSet c tx utxoSet = .ok feePaid

structure Sourced (c : Crates) (known : Set Transaction) (x : SharedNode) : Prop where
  quoted : ∀ tx feePaid, (tx,feePaid) ∈ x.quoted → Backed c known tx feePaid
  held : ∀ k entry, Holds x.node.mempool k entry → Backed c known entry.transaction entry.feePaid

theorem delivered_later (calls later : List (Turn × Answer)) : delivered calls ⊆ delivered (calls ++ later) := by
  intro tx member
  rcases List.mem_cons.mp member with genesis | old
  · exact List.mem_cons.mpr (.inl genesis)
  · refine List.mem_cons.mpr (.inr ?_)
    rw [List.map_append,List.flatMap_append]
    exact List.mem_append_left _ old

theorem Sourced.mono {wider : Set Transaction} (sourced : Sourced c known x) (subset : known ⊆ wider) : Sourced c wider x := by
  have backed : ∀ {tx feePaid}, Backed c known tx feePaid → Backed c wider tx feePaid := by
    intro tx feePaid ⟨utxoSet,origin,paid⟩
    exact ⟨utxoSet,origin.mono subset,paid⟩
  exact ⟨fun tx feePaid member => backed (sourced.quoted tx feePaid member),
    fun k entry held => backed (sourced.held k entry held)⟩

-- Such a fee is the fee on every other ledger that holds the inputs.
theorem paid_exact (identify : Set.InjOn (Transaction.txid c) known) (origin : Origin c known utxoSet)
    (backed : Backed c known tx feePaid) : validateTransactionAgainstUtxoSet c tx utxoSet = .ok fee ↔
      fee = feePaid ∧ ∀ o ∈ tx.spends, o ∈ utxoSet := by
  obtain ⟨earlier,origin',paid⟩ := backed
  constructor
  · intro again
    have present := (paid_present again).2
    have same := revalidates identify origin' origin paid present
    exact ⟨Except.ok.inj (again.symm.trans same),present⟩
  · intro both
    obtain ⟨rfl,present⟩ := both
    exact revalidates identify origin' origin paid present

theorem best_origin (valid : Valid c s) : Origin c (stored s) s.utxoSet := replay_origin valid.bootstrap valid.replay

theorem new_stored (c : Crates) : stored (.new c) ⊆ {Blockchain.genesisTx} := by
  intro tx ⟨k,b,found,member⟩
  rw [getBlock_new] at found
  split at found
  · cases found
    exact List.mem_singleton.mp member
  · cases found

theorem stored_grows (grows : Grows s after) : stored s ⊆ stored after :=
  fun _ ⟨k,b,found,member⟩ => ⟨k,b,grows.blocks k b found,member⟩

theorem step_brings (step : Step c s block after answer) : stored after ⊆ stored s ∪ {tx | tx ∈ block.transactions} := by
  intro tx ⟨k,b,found,member⟩
  rcases step_stored step found with old | ⟨_,_,rfl⟩
  · exact .inl ⟨k,b,old,member⟩
  · exact .inr member

theorem turned_stored (submits : Submits t) (turned : Turned c x t next answer) :
    stored x.node.blockchain ⊆ stored next.node.blockchain ∧
    stored next.node.blockchain ⊆ stored x.node.blockchain ∪ {tx | tx ∈ brings t} := by
  cases turned with
  | quoteRefused | quoted | enterRefused | entered => exact ⟨subset_rfl,Set.subset_union_left⟩
  | blockRefused step | blockTip step | blockKept step => exact ⟨stored_grows (step_grows step),step_brings step⟩
  | resetBlockchain | resetMempool => exact submits.elim

theorem served_delivered (path : Served c (fun _ t => Submits t) calls x) : stored x.node.blockchain ⊆ delivered calls := by
  induction path with
  | nil => exact fun tx member => List.mem_cons.mpr (.inl (new_stored c member))
  | @step calls x t next answer _ submits ran ih =>
    intro tx member
    rcases (turned_stored submits (turn_sound ran)).2 member with old | new
    · exact delivered_later _ _ (ih old)
    · refine List.mem_cons.mpr (.inr (List.mem_flatMap.mpr ⟨t,?_,new⟩))
      rw [List.map_append]
      exact List.mem_append_right _ (List.mem_singleton_self t)

theorem turned_sourced (origin : Origin c known x.node.blockchain.utxoSet) (sourced : Sourced c known x)
    (submits : Submits t) (turned : Turned c x t next answer) : Sourced c known next := by
  rcases sourced with ⟨quoted,held⟩
  have fewer : ∀ tx feePaid tx' fee', (tx',fee') ∈ (unquoted x tx feePaid).quoted → Backed c known tx' fee' :=
    fun _ _ tx' fee' member => quoted tx' fee' (List.mem_of_mem_erase member)
  cases turned with
  | quoteRefused | blockRefused | blockKept => exact ⟨quoted,held⟩
  | @quoted tx feePaid answered =>
    refine ⟨?_,held⟩
    intro tx' fee' member
    rcases List.mem_cons.mp member with here | old
    · cases here
      unfold Node.quoteFee at answered
      split at answered
      · cases answered
      · exact ⟨_,origin,answered⟩
    · exact quoted tx' fee' old
  | @enterRefused tx feePaid => exact ⟨fewer tx feePaid,held⟩
  | @entered tx feePaid _ pending =>
    refine ⟨fewer tx feePaid,?_⟩
    intro k entry inside
    rcases withEntry_held inside with ⟨_,rfl⟩ | ⟨_,old⟩
    · exact quoted tx feePaid pending
    · exact held k entry old
  | blockTip => exact ⟨quoted,fun k entry inside => held k entry (holds_removeConfirmed.mp inside).1⟩
  | resetBlockchain | resetMempool => exact submits.elim

theorem served_sourced (path : Served c (fun _ t => Submits t) calls x) : Sourced c (stored x.node.blockchain) x := by
  induction path with
  | nil => exact ⟨fun _ _ member => absurd member List.not_mem_nil,fun k entry held => absurd held (new_empty k entry)⟩
  | step path submits ran ih =>
    have turned := turn_sound ran
    have wider := (turned_stored submits turned).1
    exact turned_sourced ((best_origin (reached_valid (served_chain path))).mono wider) (ih.mono wider) submits turned

abbrev Operated (c : Crates) := Runs.Run (Node.call c) (fun _ _ => True) (.inMemory c)

-- A call that is alone on the node is its lock sections one after the other.
theorem operated_served (path : Operated c operations node) :
    ∃ turns, Served c (fun _ t => Submits t) turns ⟨node,[]⟩ := by
  induction path with
  | nil => exact ⟨[],.nil⟩
  | @step _ node call after answer _ _ ran ih =>
    obtain ⟨turns,path⟩ := ih
    cases call with
    | submitTransaction tx now =>
      have ran : node.submitTransaction c tx now = (after,answer) := Option.some.inj ran
      unfold Node.submitTransaction at ran
      cases quoted : Node.quoteFee c node.blockchain tx with
      | error text =>
        rw [quoted] at ran
        cases ran
        exact ⟨_,path⟩
      | ok feePaid =>
        simp only [quoted] at ran
        have pending : Served c (fun _ t => Submits t) (turns ++ [(.quote tx,.ok ())]) ⟨node,[(tx,feePaid)]⟩ :=
          .step path trivial (by simp only [SharedNode.turn,quoted])
        have enters : Submits (.enter tx feePaid now) := trivial
        cases entered : Node.enterMempool c node.mempool tx feePaid now with
        | error text =>
          simp only [entered] at ran
          cases ran
          have last : SharedNode.turn c ⟨node,[(tx,feePaid)]⟩ (.enter tx feePaid now) = some (⟨node,[]⟩,.error text) := by
            simp [SharedNode.turn,entered]
          exact ⟨_,.step pending enters last⟩
        | ok pool =>
          simp only [entered] at ran
          cases ran
          have last : SharedNode.turn c ⟨node,[(tx,feePaid)]⟩ (.enter tx feePaid now) =
              some (⟨{ node with mempool := pool },[]⟩,.ok ()) := by simp [SharedNode.turn,entered]
          exact ⟨_,.step pending enters last⟩
    | submitBlock block =>
      have ran : node.submitBlock c block = some (after,answer) := ran
      have last : SharedNode.turn c ⟨node,[]⟩ (.submitBlock block) = some (⟨after,[]⟩,answer) := by
        simp only [SharedNode.turn,ran,Option.map_some]
      have submits : Submits (.submitBlock block) := trivial
      exact ⟨_,.step path submits last⟩

end BlindEye.PoolSources
