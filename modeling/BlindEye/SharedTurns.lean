import BlindEye.ChainState
import BlindEye.MempoolRules

namespace BlindEye.SharedTurns
open AddBlock ChainState MempoolRules

variable {c : Crates} {x next : SharedNode} {t : Turn} {calls : List (Turn × Answer)}

abbrev Served (c : Crates) (meets : SharedNode → Turn → Prop) := Runs.Run (SharedNode.turn c) meets (.inMemory c)

-- The two parts of a shared node, replaced.
def withPool (x : SharedNode) (pool : Mempool) : SharedNode := { x with node := { x.node with mempool := pool } }
def withChain (x : SharedNode) (chain : Blockchain) : SharedNode := { x with node := { x.node with blockchain := chain } }
def unquoted (x : SharedNode) (tx : Transaction) (feePaid : UInt64) : SharedNode :=
  { x with quoted := x.quoted.erase (tx,feePaid) }

-- Every way for a lock section to end, with the node it leaves.
inductive Turned (c : Crates) (x : SharedNode) : Turn → SharedNode → Answer → Prop where
  | quoteRefused : Node.quoteFee c x.node.blockchain tx = .error text → Turned c x (.quote tx) x (.error text)
  | quoted : Node.quoteFee c x.node.blockchain tx = .ok feePaid →
      Turned c x (.quote tx) { x with quoted := (tx,feePaid) :: x.quoted } (.ok ())
  | enterRefused : (tx,feePaid) ∈ x.quoted → Node.enterMempool c x.node.mempool tx feePaid now = .error text →
      Turned c x (.enter tx feePaid now) (unquoted x tx feePaid) (.error text)
  | entered : (tx,feePaid) ∈ x.quoted → Enters c x.node.mempool tx feePaid →
      Turned c x (.enter tx feePaid now)
        (withPool (unquoted x tx feePaid) (withEntry c x.node.mempool (entryOf tx feePaid now))) (.ok ())
  | blockRefused : Step c x.node.blockchain block chain (.error text) →
      Turned c x (.submitBlock block) (withChain x chain) (.error text)
  | blockTip : Step c x.node.blockchain block chain (.ok ()) → chain.bestChain.getLast? = some (block.hash c) →
      Turned c x (.submitBlock block)
        (withPool (withChain x chain) (x.node.mempool.removeConfirmedTransactions c block.transactions)) (.ok ())
  | blockKept : Step c x.node.blockchain block chain (.ok ()) → chain.bestChain.getLast? ≠ some (block.hash c) →
      Turned c x (.submitBlock block) (withChain x chain) (.ok ())
  | resetBlockchain : Turned c x .resetBlockchain (withChain x (.new c)) (.ok ())
  | resetMempool : Turned c x .resetMempool (withPool x (.new 10000 1)) (.ok ())

theorem accepted_stored (step : Step c s block chain (.ok ())) : chain.getBlock (block.hash c) = some block := by
  cases step with
  | adopted | kept => exact getBlock_store_self

theorem submitBlock_turned (ran : x.node.submitBlock c block = some (node,answer)) :
    Turned c x (.submitBlock block) { x with node } answer := by
  obtain ⟨⟨chain,reply⟩,added,equal⟩ := Option.map_eq_some_iff.mp ran
  have step := addBlock_sound added
  dsimp only at equal
  cases reply with
  | error text =>
    cases equal
    exact .blockRefused step
  | ok =>
    dsimp only at equal
    split at equal
    · rename_i tip
      rw [accepted_stored step] at equal
      cases equal
      exact .blockTip step tip
    · rename_i off
      cases equal
      exact .blockKept step off

theorem turn_sound (ran : x.turn c t = some (next,answer)) : Turned c x t next answer := by
  cases t with
  | quote tx =>
    unfold SharedNode.turn at ran
    dsimp only at ran
    split at ran
    · rename_i refused; cases ran; exact .quoteRefused refused
    · rename_i quoted; cases ran; exact .quoted quoted
  | enter tx feePaid now =>
    unfold SharedNode.turn at ran
    dsimp only at ran
    split at ran
    · cases ran
    · rename_i held
      have held := Classical.not_not.mp held
      split at ran
      · rename_i refused; cases ran; exact .enterRefused held refused
      · rename_i entered
        obtain ⟨enters,rfl⟩ := enterMempool_exact.mp entered
        cases ran
        exact .entered held enters
  | submitBlock block =>
    obtain ⟨⟨node,reply⟩,submitted,equal⟩ := Option.map_eq_some_iff.mp ran
    cases equal
    exact submitBlock_turned submitted
  | resetBlockchain => cases ran; exact .resetBlockchain
  | resetMempool => cases ran; exact .resetMempool

-- The chain of a shared node is at any time the chain of some run of add_block.
theorem turned_chain (reached : Reachable c x.node.blockchain) (turned : Turned c x t next answer) :
    Reachable c next.node.blockchain := by
  obtain ⟨calls,path⟩ := reached
  cases turned with
  | quoteRefused | quoted | enterRefused | entered | resetMempool => exact ⟨calls,path⟩
  | blockRefused step | blockTip step | blockKept step => exact ⟨_,.step path trivial (addBlock_complete step)⟩
  | resetBlockchain => exact new_reached c

theorem served_chain (path : Served c meets calls x) : Reachable c x.node.blockchain :=
  Runs.run_invariant (motive := fun x : SharedNode => Reachable c x.node.blockchain) (new_reached c)
    (fun reached _ ran => turned_chain reached (turn_sound ran)) path

end BlindEye.SharedTurns
