import BlindEye.Node

namespace BlindEye

structure MiningSettings where
  workerCount : Nat
  mineEmptyBlocks : Bool
  deriving DecidableEq

inductive MiningError where
  | stopped
  | workerFailed (err : String)
  deriving DecidableEq

-- The test of a worker at one nonce.
def BlockTemplate.hits (c : Crates) (template : BlockTemplate) (nonce : UInt64) : Bool :=
  let header := { template.header with nonce }
  let target := BlindHash.targetFromBits header.bits
  let hash := BlindHash.hash c header.serialize
  let hashValue : U128 := BitVec.ofNat 128 (LittleEndian.fromBytes (hash.bytes.take 16))
  decide (hashValue ≤ target)

-- The next access of a worker to what the threads share. The hash is its own; the
-- access after it is the count.
inductive WorkerStep where
  | loadRunning | loadSession | loadFound | count | storeFound | send | drop | returned
  deriving DecidableEq

structure Worker where
  nonce : UInt64
  next : WorkerStep
  deriving DecidableEq

-- The next access of the thread that waits for the workers.
inductive Waiting where
  | loadRunning | loadSession | receive
  | storeFound (result : Except MiningError Block)
  | join (result : Except MiningError Block) (joined : Nat)
  | returned (result : Except MiningError Block)

-- A call of `mine_template_parallel`. A worker that is not spawned yet is one that
-- has not had a turn.
structure Search where
  template : BlockTemplate
  currentSession : UInt64
  found : Bool
  channel : List (Except String Block)
  workers : List Worker
  waiting : Waiting

namespace Search

def mineTemplateParallel (template : BlockTemplate) (workerCount : Nat) (currentSession : UInt64) : Search :=
  ⟨template,currentSession,false,[],(List.range workerCount).map fun workerId => ⟨.ofNat workerId,.loadRunning⟩,.loadRunning⟩

def put (x : Search) (i : Nat) (worker : Worker) : Search := { x with workers := x.workers.set i worker }

def work (c : Crates) (running : Bool) (sessionId : UInt64) (x : Search) (i : Nat) (worker : Worker) : Option Search :=
  match worker.next with
  | .loadRunning => some (x.put i { worker with next := if running then .loadSession else .drop })
  | .loadSession => some (x.put i { worker with next := if sessionId = x.currentSession then .loadFound else .drop })
  | .loadFound => some (x.put i { worker with next := if x.found then .drop else .count })
  | .count =>
    if x.template.hits c worker.nonce then some (x.put i { worker with next := .storeFound })
    else some (x.put i ⟨worker.nonce + .ofNat x.workers.length,.loadRunning⟩)
  | .storeFound => some ({ x with found := true }.put i { worker with next := .send })
  | .send =>
    some ({ x with channel := x.channel ++ [Except.ok (x.template.mined worker.nonce)] }.put i { worker with next := .drop })
  -- Its end of the channel goes with the thread.
  | .drop => some (x.put i { worker with next := .returned })
  | .returned => none

def wait (running : Bool) (sessionId : UInt64) (x : Search) : Option Search :=
  match x.waiting with
  | .loadRunning => some { x with waiting := if running then .loadSession else .storeFound (.error .stopped) }
  | .loadSession =>
    some { x with waiting := if sessionId = x.currentSession then .receive else .storeFound (.error .stopped) }
  | .receive =>
    match x.channel with
    | .ok block :: channel => some { x with channel, waiting := .storeFound (.ok block) }
    | .error err :: channel => some { x with channel, waiting := .storeFound (.error (.workerFailed err)) }
    | [] =>
      if x.workers.all fun worker => worker.next = .returned then
        some { x with waiting := .storeFound (.error .stopped) }
      else some { x with waiting := .loadRunning }
  | .storeFound result => some { x with found := true, waiting := .join result 0 }
  | .join result joined =>
    match x.workers[joined]? with
    | none => some { x with waiting := .returned result }
    | some worker => if worker.next = .returned then some { x with waiting := .join result (joined + 1) } else none
  | .returned _ => none

end Search

-- What the thread of a session does next. It calls its two closures in steps of
-- their own.
inductive ControllerStep where
  | loadRunning | loadSession | makeTemplate
  | search (search : Search)
  | submitBlock (block : Block)
  | stopped

structure Controller where
  currentSession : UInt64
  workerCount : Nat
  mineEmptyBlocks : Bool
  next : ControllerStep

namespace Controller

-- The loop of the session, which goes on whether a block is accepted or not. What
-- `make_template` answers counts only where the loop calls it.
def control (running : Bool) (sessionId : UInt64) (x : Controller) (made : Except String BlockTemplate) :
    Option Controller :=
  let go next := some { x with next }
  match x.next with
  | .loadRunning => go (if running then .loadSession else .stopped)
  | .loadSession => go (if sessionId = x.currentSession then .makeTemplate else .stopped)
  | .makeTemplate =>
    match made with
    | .error _ => go .loadRunning
    | .ok template =>
      if !x.mineEmptyBlocks && template.block.transactions.length ≤ 1 then go .loadRunning
      else go (.search (.mineTemplateParallel template x.workerCount x.currentSession))
  | .search search =>
    match search.waiting with
    | .returned (.ok block) => go (.submitBlock block)
    | .returned (.error .stopped) => go .stopped
    | .returned (.error (.workerFailed _)) => go .loadRunning
    | _ => (search.wait running sessionId).bind fun search => go (.search search)
  | .submitBlock _ => go .loadRunning
  | .stopped => none

def work (c : Crates) (running : Bool) (sessionId : UInt64) (x : Controller) (j : Nat) : Option Controller :=
  match x.next with
  | .search search =>
    match search.workers[j]? with
    | none => none
    | some worker => (search.work c running sessionId j worker).map fun search => { x with next := .search search }
  | _ => none

def submits (x : Controller) : Option Block :=
  match x.next with
  | .submitBlock block => some block
  | _ => none

def counts (x : Controller) (j : Nat) : Bool :=
  match x.next with
  | .search search => search.workers[j]?.map Worker.next = some .count
  | _ => false

end Controller

-- The miner between the accesses of its threads. `starting` holds the callers of
-- `start_continuous` that have set `running` and have no session yet; `stopping`
-- counts those of `stop_mining` that have still to end the session.
structure Miner where
  running : Bool
  sessionId : UInt64
  totalHashes : UInt64
  lastBlockHash : Option Digest
  starting : List MiningSettings
  stopping : Nat
  controllers : List Controller

-- A turn of a session's thread comes with what its closures answer if it calls them.
inductive MinerCall where
  | start (settings : MiningSettings)
  | startSession (settings : MiningSettings)
  | stop
  | stopSession
  | controller (i : Nat) (made : Except String BlockTemplate) (accepted : Answer)
  | worker (i j : Nat)

inductive MinerAnswer where
  | quiet
  | answered (answer : Answer)
  | submitted (block : Block) (accepted : Answer)

namespace Miner

def new : Miner := ⟨false,0,0,none,[],0,[]⟩

def turn (c : Crates) (x : Miner) : MinerCall → Option (Miner × MinerAnswer)
  | .start settings =>
    if x.running then some (x,.answered (.error "Mining is already running"))
    else some ({ x with running := true, starting := settings :: x.starting },.quiet)
  | .startSession settings =>
    if settings ∉ x.starting then none
    else
      let currentSession := x.sessionId + 1
      let controller := ⟨currentSession,max settings.workerCount 1,settings.mineEmptyBlocks,.loadRunning⟩
      some (⟨x.running,currentSession,0,none,x.starting.erase settings,x.stopping,x.controllers ++ [controller]⟩,
        .answered (.ok ()))
  | .stop => some ({ x with running := false, stopping := x.stopping + 1 },.quiet)
  | .stopSession =>
    if x.stopping = 0 then none
    else some ({ x with sessionId := x.sessionId + 1, stopping := x.stopping - 1 },.answered (.ok ()))
  | .controller i made accepted =>
    x.controllers[i]?.bind fun controller =>
      (controller.control x.running x.sessionId made).map fun next =>
        let controllers := x.controllers.set i next
        match controller.submits with
        | none => ({ x with controllers },.quiet)
        | some block =>
          let lastBlockHash := match accepted with
            | .ok () => some (block.hash c)
            | .error _ => x.lastBlockHash
          ({ x with controllers, lastBlockHash },.submitted block accepted)
  | .worker i j =>
    x.controllers[i]?.bind fun controller =>
      (controller.work c x.running x.sessionId j).map fun next =>
        let totalHashes := if controller.counts j then x.totalHashes + 1 else x.totalHashes
        ({ x with controllers := x.controllers.set i next, totalHashes },.quiet)

end Miner

end BlindEye
