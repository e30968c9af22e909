import BlindEye.Library.LockOrder

namespace BlindEye
open LockOrder

-- The mutexes of a node. Those of the miner and of the RPC server are held in
-- their own functions only, which call back into none of these.
inductive Mutex where
  | blockchain
  | mempool
  | peerManager
  deriving DecidableEq

abbrev Locks := List (Move Mutex)

-- A guard over what runs in its scope.
def holding (mutex : Mutex) (inside : Locks) : Locks := .acquire mutex :: (inside ++ [.release mutex])

inductive SubmitOutcome where
  | refused
  | rejected
  | entered (prepared : Bool)
  deriving DecidableEq

-- The operations with what decides between their paths: `prepared` says that the
-- state directory exists, `accepted` that `add_block` answered Ok, and `filled`
-- that the fields of the send form are filled in and parse.
inductive Operation where
  | saveState (prepared : Bool)
  | submitTransaction (outcome : SubmitOutcome)
  | submitBlock (accepted prepared : Bool)
  | createBlockTemplate
  | blocksFromHeight
  | getStatus
  | resetToGenesis (prepared : Bool)
  | reservedOutpoints
  | refreshWalletState
  | currentSendPreview (filled : Bool)
  | suggestedFeeForPriority (filled : Bool)
  deriving DecidableEq

namespace NodeLocks

-- The three guards are temporaries of one let statement and live to its end.
def saveState (prepared : Bool) : Locks :=
  if prepared then holding .blockchain (holding .mempool (holding .peerManager [])) else []

def submitTransaction : SubmitOutcome → Locks
  | .refused => holding .blockchain []
  | .rejected => holding .blockchain [] ++ holding .mempool []
  | .entered prepared => holding .blockchain [] ++ holding .mempool [] ++ saveState prepared

def getBestHeight : Locks := holding .blockchain []

def createBlockTemplate : Locks := holding .blockchain (holding .mempool [])

def submitBlock (accepted prepared : Bool) : Locks :=
  if accepted then holding .blockchain (holding .mempool []) ++ saveState prepared else holding .blockchain []

def blocksFromHeight : Locks := holding .blockchain []

def getStatus : Locks := holding .peerManager [] ++ getBestHeight ++ holding .mempool [] ++ holding .mempool []

def resetToGenesis (prepared : Bool) : Locks :=
  holding .blockchain [] ++ holding .mempool [] ++ holding .peerManager [] ++ saveState prepared

def reservedOutpoints : Locks := holding .mempool []

def refreshWalletState : Locks := reservedOutpoints ++ holding .blockchain [] ++ holding .mempool [] ++ getStatus

def currentSendPreview (filled : Bool) : Locks := if filled then holding .blockchain reservedOutpoints else []

-- The blockchain guard lives to the end of the function, over `get_status`.
def suggestedFeeForPriority (filled : Bool) : Locks :=
  if filled then holding .blockchain (reservedOutpoints ++ getStatus) else []

def locks : Operation → Locks
  | .saveState prepared => saveState prepared
  | .submitTransaction outcome => submitTransaction outcome
  | .submitBlock accepted prepared => submitBlock accepted prepared
  | .createBlockTemplate => createBlockTemplate
  | .blocksFromHeight => blocksFromHeight
  | .getStatus => getStatus
  | .resetToGenesis prepared => resetToGenesis prepared
  | .reservedOutpoints => reservedOutpoints
  | .refreshWalletState => refreshWalletState
  | .currentSendPreview filled => currentSendPreview filled
  | .suggestedFeeForPriority filled => suggestedFeeForPriority filled

def program (operations : List Operation) : Locks := (operations.map locks).flatten

-- The order that the source keeps without saying so.
def rank : Mutex → Nat
  | .blockchain => 0
  | .mempool => 1
  | .peerManager => 2

theorem locks_ordered {operation : Operation} (calm : operation ≠ .suggestedFeeForPriority true) :
    Ordered rank [] (locks operation) ∧ heldAfter [] (locks operation) = [] := by
  cases operation with
  | saveState prepared => cases prepared <;> decide
  | submitTransaction outcome =>
    cases outcome with
    | refused => decide
    | rejected => decide
    | entered prepared => cases prepared <;> decide
  | submitBlock accepted prepared => cases accepted <;> cases prepared <;> decide
  | createBlockTemplate => decide
  | blocksFromHeight => decide
  | getStatus => decide
  | resetToGenesis prepared => cases prepared <;> decide
  | reservedOutpoints => decide
  | refreshWalletState => decide
  | currentSendPreview filled => cases filled <;> decide
  | suggestedFeeForPriority filled =>
    cases filled with
    | false => decide
    | true => exact absurd rfl calm

theorem program_ordered {operations : List Operation} (calm : .suggestedFeeForPriority true ∉ operations) :
    Ordered rank [] (program operations) ∧ heldAfter [] (program operations) = [] := by
  apply ordered_flatten
  intro part member
  obtain ⟨operation,inside,rfl⟩ := List.mem_map.mp member
  apply locks_ordered
  intro same
  exact calm (same ▸ inside)

-- Up to the call of `get_best_height` under the guard.
def suggestedFeeStart : Locks := .acquire .blockchain :: (reservedOutpoints ++ holding .peerManager [])
def suggestedFeeEnd : Locks :=
  .release .blockchain :: (holding .mempool [] ++ holding .mempool [] ++ [.release .blockchain])

theorem suggestedFee_split : suggestedFeeForPriority true =
    suggestedFeeStart ++ .acquire .blockchain :: suggestedFeeEnd := rfl

variable {Name : Type} {operations : Name → List Operation}

-- Each thread calls its operations one after the other.
def begun (operations : Name → List Operation) : Name → Thread Mutex := start fun i => program (operations i)

theorem start_ordered (calm : ∀ i, .suggestedFeeForPriority true ∉ operations i) :
    AllOrdered rank (begun operations) := fun i => (program_ordered (calm i)).1

variable [DecidableEq Name]

theorem suggestedFee_waits (called : .suggestedFeeForPriority true ∈ operations i) :
    ∃ s, Reaches (begun operations) s ∧ Waits s i i := by
  obtain ⟨before,after,split,calm⟩ := List.eq_append_cons_of_mem called
  obtain ⟨ordered,free⟩ := program_ordered calm
  have parts : (begun operations i).rest = (program before ++ suggestedFeeStart) ++
      .acquire .blockchain :: (suggestedFeeEnd ++ program after) := by
    simp only [begun,start,program,split,List.map_append,List.map_cons,List.flatten_append,List.flatten_cons,locks,
      suggestedFee_split,List.append_assoc,List.cons_append]
  apply reentry_waits parts _ _ (fun _ _ => rfl)
  · exact rank
  · apply ordered_append.mpr ⟨ordered,_⟩
    rw [free]
    decide
  · change .blockchain ∈ heldAfter [] (program before ++ suggestedFeeStart)
    rw [heldAfter_append,free]
    decide

theorem node_deadlock_exact (operations : Name → List Operation) :
    (∀ s, Reaches (begun operations) s → ¬ Deadlocked s) ↔
      ∀ i, .suggestedFeeForPriority true ∉ operations i := by
  constructor
  · intro free i called
    obtain ⟨s,path,waits⟩ := suggestedFee_waits called
    exact free s path ⟨i,.single waits⟩
  · intro calm s path
    exact ordered_never_deadlocked (reaches_ordered path (start_ordered calm))

-- Then the node never stands still before every caller is done.
theorem operations_move (calm : ∀ i, .suggestedFeeForPriority true ∉ operations i)
    (path : Reaches (begun operations) s) (unfinished : (s i).rest ≠ []) : ∃ t, Step s t := by
  have bounded : ∀ mutex, rank mutex < 3 := by
    intro mutex
    cases mutex <;> decide
  exact ordered_moves bounded (reaches_ordered path (start_ordered calm))
    (reaches_released path fun i => (program_ordered (calm i)).2) unfinished

def oneCaller : Unit → List Operation := fun _ => [.suggestedFeeForPriority true]

-- One caller alone is enough.
theorem suggestedFee_blocks_itself : ∃ s, Reaches (begun oneCaller) s ∧ Waits s () () ∧ Deadlocked s := by
  have called : .suggestedFeeForPriority true ∈ oneCaller () := List.mem_singleton.mpr rfl
  obtain ⟨s,path,waits⟩ := suggestedFee_waits called
  exact ⟨s,path,waits,_,.single waits⟩

end NodeLocks

end BlindEye
