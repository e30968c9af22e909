import BlindEye.PoolInvariants

namespace BlindEye.Submission
open MempoolRules PoolInvariants

-- The ways through `submit_transaction`. Only the last one writes, and its
-- answer is that of the disk.
inductive Submits (c : Crates) (disk : Node.Disk) (node : Node) (tx : Transaction) (now : UInt64) : Node → Answer → Prop where
  | refused : Node.quoteFee c node.blockchain tx = .error text → Submits c disk node tx now node (.error text)
  | barred : Node.quoteFee c node.blockchain tx = .ok feePaid → ¬ Enters c node.mempool tx feePaid →
      Node.enterMempool c node.mempool tx feePaid now = .error text → Submits c disk node tx now node (.error text)
  | entered : Node.quoteFee c node.blockchain tx = .ok feePaid → Enters c node.mempool tx feePaid →
      Node.saveState disk = answer → Submits c disk node tx now
        { node with mempool := withEntry c node.mempool (entryOf tx feePaid now) } answer

-- Both checks of the call pass.
def Taken (c : Crates) (node : Node) (tx : Transaction) : Prop :=
  ∃ feePaid, Node.quoteFee c node.blockchain tx = .ok feePaid ∧ Enters c node.mempool tx feePaid

variable {c : Crates} {disk : Node.Disk} {node next : Node} {tx : Transaction} {answer : Answer} {now : UInt64}

theorem submits_exact : node.submitTransactionOn c disk tx now = (next,answer) ↔ Submits c disk node tx now next answer := by
  constructor
  · intro ran
    unfold Node.submitTransactionOn at ran
    cases quoted : Node.quoteFee c node.blockchain tx with
    | error text =>
      rw [quoted] at ran
      cases ran
      exact .refused quoted
    | ok feePaid =>
      rw [quoted] at ran
      cases entering : Node.enterMempool c node.mempool tx feePaid now with
      | error text =>
        simp only [entering] at ran
        cases ran
        refine .barred quoted (fun enters => ?_) entering
        rw [enterMempool_exact.mpr ⟨enters,rfl⟩] at entering
        cases entering
      | ok mempool =>
        simp only [entering] at ran
        cases ran
        obtain ⟨enters,rfl⟩ := enterMempool_exact.mp entering
        exact .entered quoted enters rfl
  · intro submits
    unfold Node.submitTransactionOn
    cases submits with
    | refused quoted => rw [quoted]
    | barred quoted _ entering =>
      rw [quoted]
      simp only [entering]
    | entered quoted enters saved =>
      rw [quoted]
      simp only [enterMempool_exact.mpr ⟨enters,rfl⟩,saved]

-- On a disk that answers Ok this is the call of the earlier results.
theorem submitTransactionOn_saved (saved : Node.saveState disk = .ok ()) :
    node.submitTransactionOn c disk tx now = node.submitTransaction c tx now := by
  unfold Node.submitTransactionOn Node.submitTransaction
  rw [saved]

theorem withEntry_changes (fresh : tx.txid c ∉ node.mempool.transactions) :
    { node with mempool := withEntry c node.mempool (entryOf tx feePaid now) } ≠ node := by
  intro same
  have grown : (withEntry c node.mempool (entryOf tx feePaid now)).size = node.mempool.size + 1 := size_withEntry fresh
  have pools : withEntry c node.mempool (entryOf tx feePaid now) = node.mempool := congrArg Node.mempool same
  rw [pools] at grown
  omega

-- What a call that answers with an error has left behind.
theorem failure_exact (ran : node.submitTransactionOn c disk tx now = (next,.error text)) :
    next = node ∨ Taken c node tx ∧ Node.saveState disk = .error text ∧
      ∃ feePaid, Holds next.mempool (tx.txid c) (entryOf tx feePaid now) := by
  cases submits_exact.mp ran with
  | refused => exact .inl rfl
  | barred => exact .inl rfl
  | entered quoted enters saved => exact .inr ⟨⟨_,quoted,enters⟩,saved,_,withEntry_self⟩

theorem failure_traceless_exact : (∀ next text, node.submitTransactionOn c disk tx now = (next,.error text) → next = node) ↔
    (Taken c node tx → Node.saveState disk = .ok ()) := by
  constructor
  · intro traceless taken
    obtain ⟨feePaid,quoted,enters⟩ := taken
    cases saved : Node.saveState disk with
    | ok => rfl
    | error text =>
      have changed := traceless _ text (submits_exact.mpr (.entered quoted enters saved))
      exact absurd changed (withEntry_changes enters.fresh)
  · intro saves next text ran
    rcases failure_exact ran with same | ⟨taken,failed,_⟩
    · exact same
    · rw [saves taken] at failed
      cases failed

def fullDisk : Node.Disk := ⟨none,.ok (),.error "No space left on device (os error 28)"⟩
def diskFull : Answer := .error "Failed to write node state: No space left on device (os error 28)"

-- The wallet is told that the payment failed, and the payment is in the pool.
theorem failed_save_leaves_entry : ∃ node next, Runs.feed (Node.call reference) (.inMemory reference)
      [.submitBlock earnBlock] = some (node,[.ok ()]) ∧
    node.submitTransactionOn reference fullDisk pendingPayment 0 = (next,diskFull) ∧
    next.mempool.containsTransaction (pendingPayment.txid reference) = true ∧ next ≠ node := by
  have fed : (Runs.feed (Node.call reference) (.inMemory reference) [.submitBlock earnBlock]).map (fun pair =>
      (pair.2,pair.1.mempool.containsTransaction (pendingPayment.txid reference),
        (pair.1.submitTransactionOn reference fullDisk pendingPayment 0).2,
        (pair.1.submitTransactionOn reference fullDisk pendingPayment 0).1.mempool.containsTransaction
          (pendingPayment.txid reference))) = some ([.ok ()],false,diskFull,true) := by decide +kernel
  obtain ⟨⟨node,answers⟩,ran,equal⟩ := Option.map_eq_some_iff.mp fed
  simp only [Prod.mk.injEq] at equal
  obtain ⟨rfl,absent,answered,present⟩ := equal
  cases ended : node.submitTransactionOn reference fullDisk pendingPayment 0 with
  | mk next answer =>
    rw [ended] at answered present
    obtain rfl := answered
    refine ⟨node,next,ran,ended,present,?_⟩
    intro same
    subst same
    exact absurd (absent.symm.trans present) Bool.false_ne_true

end BlindEye.Submission
