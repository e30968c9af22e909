import BlindEye.Node
import BlindEye.PeerViews
import BlindEye.Reference

namespace BlindEye

-- What a function of the manager returns with.
inductive PeerError where
  | io (text : String)
  | p2p (error : P2pError)
  deriving DecidableEq

-- `handle_peer` serves an accepted connection and `handle_peer_connection` one
-- that the node has made.
inductive Direction where
  | inbound
  | outbound
  deriving DecidableEq

-- Where a handler stands: before its own handshake, before the first message, and
-- in the loop with what it has to write before it reads again.
inductive HandlerStage where
  | greeting
  | awaiting
  | writing (messages : List PeerMessage)
  | returned (result : Except PeerError Unit)

def HandlerStage.result : HandlerStage → Option (Except PeerError Unit)
  | .returned result => some result
  | _ => none

-- What a handler finds when it has read a message: the clocks, the orders of the
-- hash maps, and the node and the table as the other tasks left them.
structure Moment where
  now : SystemTime
  timestamp : UInt64
  orders : P2pManager.Orders
  node : Node
  values : List ConnectedPeer

inductive HandlerEvent where
  | others (call : PeerCall) (orders : P2pManager.Orders)
  | wrote (result : Except PeerError Unit)
  | got (result : Except P2pError PeerMessage) (moment : Moment)

-- The writes of `handle_message` on the connection itself. A block or a
-- transaction is relayed over other connections, whose failures are only logged.
def P2pManager.replies (moment : Moment) : PeerMessage → List PeerMessage
  | .getPeers => [.peers (moment.values.map fun peer => peer.address.toString)]
  | .getHeaders fromHeight count =>
    (Node.blocksFromHeight moment.node.blockchain fromHeight count).map .block ++ [.ping 0]
  | .ping nonce => [.pong nonce]
  | _ => []

structure Handler where
  views : PeerViews
  stage : HandlerStage

namespace Handler

def start (direction : Direction) (views : PeerViews) : Handler :=
  match direction with
  | .inbound => ⟨views,.awaiting⟩
  | .outbound => ⟨views,.greeting⟩

-- A call on the table, with the stage behind it.
def calls (x : Handler) (call : PeerCall) (orders : P2pManager.Orders) (stage : HandlerStage) :
    Option (Handler × Unit) :=
  (x.views.turn (call,orders)).map fun (views,_) => (⟨views,stage⟩,())

-- One section of the handler of the connection, or of another task.
def turn (direction : Direction) (addr : SocketAddr) (x : Handler) : HandlerEvent → Option (Handler × Unit)
  | .others call orders => x.calls call orders x.stage
  | .wrote result =>
    match x.stage,result with
    | .greeting,.ok () => some ({ x with stage := .awaiting },())
    | .writing (_ :: messages),.ok () => some ({ x with stage := .writing messages },())
    | .greeting,.error e | .writing (_ :: _),.error e => some ({ x with stage := .returned (.error e) },())
    | _,_ => none
  | .got result moment =>
    match x.stage,result with
    | .awaiting,.ok (.handshake version bestHeight _ listenAddr) =>
      let advertisedAddr := P2pManager.canonicalizeAdvertisedAddr addr listenAddr
      let greeting := x.views.manager.localHandshake moment.node.blockchain.currentHeight moment.timestamp
      x.calls (.upsertPeer addr advertisedAddr bestHeight version moment.now) moment.orders
        (.writing (match direction with
          | .inbound => [greeting,.getPeers]
          | .outbound => [.getPeers]))
    | .awaiting,.ok _ => some ({ x with stage := .returned (.error (.p2p .invalidMessage)) },())
    | .awaiting,.error e => some ({ x with stage := .returned (.error (.p2p e)) },())
    | .writing [],.ok msg =>
      x.calls (.notePeerActivity addr (P2pManager.messageHeight msg) moment.now) moment.orders
        (.writing (P2pManager.replies moment msg))
    | .writing [],.error _ => x.calls (.removePeer addr) moment.orders (.returned (.ok ()))
    | _,_ => none

end Handler

namespace PeerExit
open P2pManager

def isGreeting : PeerMessage → Bool
  | .handshake _ _ _ _ => true
  | _ => false

-- Everything that one section can do.
inductive Outcome (addr : SocketAddr) (x : Handler) : HandlerEvent → Handler → Prop where
  | others : x.views.turn (call,orders) = some (views,()) → Outcome addr x (.others call orders) ⟨views,x.stage⟩
  | introduced : x.stage = .greeting → Outcome addr x (.wrote (.ok ())) ⟨x.views,.awaiting⟩
  | unheard : x.stage = .greeting → Outcome addr x (.wrote (.error e)) ⟨x.views,.returned (.error e)⟩
  | sent : x.stage = .writing (msg :: messages) → Outcome addr x (.wrote (.ok ())) ⟨x.views,.writing messages⟩
  | broken : x.stage = .writing (msg :: messages) →
      Outcome addr x (.wrote (.error e)) ⟨x.views,.returned (.error e)⟩
  | greeted : x.stage = .awaiting → isGreeting msg = true →
      x.views.turn (.upsertPeer addr advertisedAddr h version now,orders) = some (views,()) →
      Outcome addr x (.got (.ok msg) moment) ⟨views,.writing messages⟩
  | refused : x.stage = .awaiting → isGreeting msg = false →
      Outcome addr x (.got (.ok msg) moment) ⟨x.views,.returned (.error (.p2p .invalidMessage))⟩
  | silent : x.stage = .awaiting → Outcome addr x (.got (.error e) moment) ⟨x.views,.returned (.error (.p2p e))⟩
  | handled : x.stage = .writing [] → x.views.turn (.notePeerActivity addr height now,orders) = some (views,()) →
      Outcome addr x (.got (.ok msg) moment) ⟨views,.writing messages⟩
  | closed : x.stage = .writing [] → x.views.turn (.removePeer addr,orders) = some (views,()) →
      Outcome addr x (.got (.error e) moment) ⟨views,.returned (.ok ())⟩

variable {x next : Handler} {views : PeerViews} {event : HandlerEvent} {direction : Direction} {addr : SocketAddr}
  {call : PeerCall} {orders : Orders} {stage : HandlerStage}

theorem calls_exact : x.calls call orders stage = some (next,()) ↔
    ∃ views, x.views.turn (call,orders) = some (views,()) ∧ next = ⟨views,stage⟩ := by
  simp only [Handler.calls,Option.map_eq_some_iff,Prod.exists,Prod.mk.injEq]
  constructor
  · intro ⟨views,_,ran,equal,_⟩
    exact ⟨views,ran,equal.symm⟩
  · intro ⟨views,ran,equal⟩
    exact ⟨views,(),ran,equal.symm,trivial⟩

theorem turn_outcome (ran : x.turn direction addr event = some (next,())) : Outcome addr x event next := by
  obtain ⟨views,stage⟩ := x
  cases event with
  | others call orders =>
    obtain ⟨after,moved,rfl⟩ := calls_exact.mp ran
    exact .others moved
  | wrote result =>
    cases stage with
    | greeting =>
      cases result with
      | ok => cases ran; exact .introduced rfl
      | error => cases ran; exact .unheard rfl
    | writing messages =>
      cases messages with
      | nil => cases result <;> cases ran
      | cons =>
        cases result with
        | ok => cases ran; exact .sent rfl
        | error => cases ran; exact .broken rfl
    | awaiting | returned => cases result <;> cases ran
  | got result moment =>
    cases stage with
    | awaiting =>
      cases result with
      | error => cases ran; exact .silent rfl
      | ok msg =>
        cases msg with
        | handshake =>
          obtain ⟨after,moved,rfl⟩ := calls_exact.mp ran
          exact .greeted rfl rfl moved
        | getPeers | peers | getBlocks | block | transaction | getHeaders | ping | pong =>
          cases ran
          exact .refused rfl rfl
    | writing messages =>
      cases messages with
      | nil =>
        cases result with
        | error =>
          obtain ⟨after,moved,rfl⟩ := calls_exact.mp ran
          exact .closed rfl moved
        | ok =>
          obtain ⟨after,moved,rfl⟩ := calls_exact.mp ran
          exact .handled rfl moved
      | cons => cases result <;> cases ran
    | greeting | returned => cases result <;> cases ran

theorem turn_run (ran : x.views.turn (call,orders) = some (views,())) :
    views.manager = call.run x.views.manager := (PeerViews.turn_exact.mp ran).1

theorem upserted (ran : x.views.turn (.upsertPeer addr advertisedAddr h version now,orders) = some (views,())) :
    addr ∈ views.manager.peers := by
  rw [turn_run ran]
  simp [PeerCall.run,upsertPeer]

theorem removed (ran : x.views.turn (.removePeer addr,orders) = some (views,())) : addr ∉ views.manager.peers := by
  rw [turn_run ran]
  simp [PeerCall.run,removePeer]

theorem noted (ran : x.views.turn (.notePeerActivity addr height now,orders) = some (views,())) :
    addr ∈ views.manager.peers ↔ addr ∈ x.views.manager.peers := by
  rw [turn_run ran,PeerCall.run,notePeerActivity]
  split
  · rfl
  · rename_i peer stored
    have known : addr ∈ x.views.manager.peers := Finmap.mem_iff.mpr ⟨peer,stored⟩
    simp [known]

-- What another task does to the entry of the connection: it does not add one, or
-- it does not take it away either.
def Spares (addr : SocketAddr) (x : Handler) : HandlerEvent → Prop
  | .others call _ => addr ∈ (call.run x.views.manager).peers → addr ∈ x.views.manager.peers
  | _ => True

def Leaves (addr : SocketAddr) (x : Handler) : HandlerEvent → Prop
  | .others call _ => addr ∈ (call.run x.views.manager).peers ↔ addr ∈ x.views.manager.peers
  | _ => True

abbrev Ran (direction : Direction) (addr : SocketAddr) (meets : Handler → HandlerEvent → Prop) (views : PeerViews) :=
  Runs.Run (Handler.turn direction addr) meets (.start direction views)

-- A handshake was read, and a write has failed.
def greets : HandlerEvent → Bool
  | .got (.ok msg) _ => isGreeting msg
  | _ => false

def fails : HandlerEvent → Bool
  | .wrote (.error _) => true
  | _ => false

def greeted (calls : List (HandlerEvent × Unit)) : Bool := calls.any fun call => greets call.1
def failed (calls : List (HandlerEvent × Unit)) : Bool := calls.any fun call => fails call.1

-- No write failed behind the handshake, or there was none and no entry before.
def Clean (addr : SocketAddr) (views : PeerViews) (calls : List (HandlerEvent × Unit)) : Prop :=
  if greeted calls then failed calls = false else addr ∉ views.manager.peers

def Standing (addr : SocketAddr) (meets : Handler → HandlerEvent → Prop) (views : PeerViews)
    (calls : List (HandlerEvent × Unit)) (x : Handler) : Prop :=
  let spares := ∀ x event, meets x event → Spares addr x event
  let leaves := ∀ x event, meets x event → Leaves addr x event
  match x.stage with
  | .greeting | .awaiting => greeted calls = false ∧ failed calls = false ∧
      (spares → addr ∈ x.views.manager.peers → addr ∈ views.manager.peers) ∧
      (leaves → addr ∈ views.manager.peers → addr ∈ x.views.manager.peers)
  | .writing _ => greeted calls = true ∧ failed calls = false ∧ (leaves → addr ∈ x.views.manager.peers)
  | .returned _ => (spares → Clean addr views calls → addr ∉ x.views.manager.peers) ∧
      (leaves → ¬ Clean addr views calls → addr ∈ x.views.manager.peers)

@[simp] theorem greeted_snoc (calls : List (HandlerEvent × Unit)) (call : HandlerEvent × Unit) :
    greeted (calls ++ [call]) = (greeted calls || greets call.1) := by simp [greeted]

@[simp] theorem failed_snoc (calls : List (HandlerEvent × Unit)) (call : HandlerEvent × Unit) :
    failed (calls ++ [call]) = (failed calls || fails call.1) := by simp [failed]

variable {meets : Handler → HandlerEvent → Prop} {calls : List (HandlerEvent × Unit)} {origin : PeerViews}

theorem clean_before (ungreeted : greeted calls = false) (quiet : greets event = false) :
    Clean addr origin (calls ++ [(event,())]) ↔ addr ∉ origin.manager.peers := by
  simp [Clean,ungreeted,quiet]

theorem clean_behind (once : greeted calls = true) (unfailed : failed calls = false) :
    Clean addr origin (calls ++ [(event,())]) ↔ fails event = false := by
  simp [Clean,once,unfailed]

-- A handler that returns before the handshake leaves the table as it found it.
theorem unheard_standing {result : Except PeerError Unit} (ungreeted : greeted calls = false)
    (quiet : greets event = false)
    (fewer : (∀ x event, meets x event → Spares addr x event) →
      addr ∈ x.views.manager.peers → addr ∈ origin.manager.peers)
    (more : (∀ x event, meets x event → Leaves addr x event) →
      addr ∈ origin.manager.peers → addr ∈ x.views.manager.peers) :
    Standing addr meets origin (calls ++ [(event,())]) ⟨x.views,.returned result⟩ := by
  simp only [Standing,clean_before ungreeted quiet,not_not]
  exact ⟨fun spares absent inside => absent (fewer spares inside),more⟩

theorem outcome_standing (standing : Standing addr meets origin calls x) (allowed : meets x event)
    (outcome : Outcome addr x event next) : Standing addr meets origin (calls ++ [(event,())]) next := by
  cases outcome with
  | @others call orders views moved =>
    have same := turn_run moved
    have spared : (∀ x event, meets x event → Spares addr x event) →
        addr ∈ views.manager.peers → addr ∈ x.views.manager.peers := by
      intro spares
      rw [same]
      exact spares _ _ allowed
    have left : (∀ x event, meets x event → Leaves addr x event) →
        addr ∈ x.views.manager.peers → addr ∈ views.manager.peers := by
      intro leaves
      rw [same]
      exact (leaves _ _ allowed).mpr
    cases stage : x.stage with
    | greeting | awaiting =>
      simp only [Standing,stage] at standing
      obtain ⟨ungreeted,unfailed,fewer,more⟩ := standing
      simp only [Standing,greeted_snoc,failed_snoc,ungreeted,unfailed]
      exact ⟨rfl,rfl,fun spares inside => fewer spares (spared spares inside),
        fun leaves inside => left leaves (more leaves inside)⟩
    | writing =>
      simp only [Standing,stage] at standing
      obtain ⟨once,unfailed,inside⟩ := standing
      simp only [Standing,greeted_snoc,failed_snoc,once,unfailed]
      exact ⟨rfl,rfl,fun leaves => left leaves (inside leaves)⟩
    | returned =>
      simp only [Standing,stage] at standing
      obtain ⟨fewer,more⟩ := standing
      have clean : Clean addr origin (calls ++ [(.others call orders,())]) ↔ Clean addr origin calls := by
        simp [Clean,greets,fails]
      simp only [Standing,clean]
      exact ⟨fun spares good inside => fewer spares good (spared spares inside),
        fun leaves bad => left leaves (more leaves bad)⟩
  | introduced stage =>
    simp only [Standing,stage] at standing
    obtain ⟨ungreeted,unfailed,fewer,more⟩ := standing
    simp only [Standing,greeted_snoc,failed_snoc,ungreeted,unfailed]
    exact ⟨rfl,rfl,fewer,more⟩
  | unheard stage =>
    simp only [Standing,stage] at standing
    obtain ⟨ungreeted,_,fewer,more⟩ := standing
    exact unheard_standing ungreeted rfl fewer more
  | sent stage =>
    simp only [Standing,stage] at standing
    obtain ⟨once,unfailed,inside⟩ := standing
    simp only [Standing,greeted_snoc,failed_snoc,once,unfailed]
    exact ⟨rfl,rfl,inside⟩
  | broken stage =>
    simp only [Standing,stage] at standing
    obtain ⟨once,unfailed,inside⟩ := standing
    simp only [Standing,clean_behind once unfailed]
    refine ⟨?_,fun leaves _ => inside leaves⟩
    intro _ clean
    cases clean
  | greeted stage greeting moved =>
    simp only [Standing,stage] at standing
    obtain ⟨ungreeted,unfailed,_⟩ := standing
    simp only [Standing,greeted_snoc,failed_snoc,ungreeted,unfailed]
    exact ⟨greeting,rfl,fun _ => upserted moved⟩
  | refused stage other =>
    simp only [Standing,stage] at standing
    obtain ⟨ungreeted,_,fewer,more⟩ := standing
    exact unheard_standing ungreeted other fewer more
  | silent stage =>
    simp only [Standing,stage] at standing
    obtain ⟨ungreeted,_,fewer,more⟩ := standing
    exact unheard_standing ungreeted rfl fewer more
  | handled stage moved =>
    simp only [Standing,stage] at standing
    obtain ⟨once,unfailed,inside⟩ := standing
    simp only [Standing,greeted_snoc,failed_snoc,once,unfailed]
    exact ⟨rfl,rfl,fun leaves => (noted moved).mpr (inside leaves)⟩
  | closed stage moved =>
    simp only [Standing,stage] at standing
    obtain ⟨once,unfailed,inside⟩ := standing
    simp only [Standing,clean_behind once unfailed]
    exact ⟨fun _ _ => removed moved,fun _ unclean => absurd rfl unclean⟩

theorem run_standing (path : Ran direction addr meets origin calls x) : Standing addr meets origin calls x := by
  induction path with
  | nil =>
    cases direction with
    | inbound | outbound => exact ⟨rfl,rfl,fun _ => id,fun _ => id⟩
  | step _ allowed ran ih => exact outcome_standing ih allowed (turn_outcome ran)

theorem outcome_agrees (agrees : PeerViews.Agrees x.views.manager.peers x.views.nodePeers)
    (outcome : Outcome addr x event next) :
    PeerViews.Agrees next.views.manager.peers next.views.nodePeers := by
  cases outcome with
  | others moved | greeted _ _ moved | handled _ moved | closed _ moved => exact PeerViews.turn_agrees agrees moved
  | introduced | unheard | sent | broken | refused | silent => exact agrees

theorem run_agrees (agrees : PeerViews.Agrees origin.manager.peers origin.nodePeers)
    (path : Ran direction addr meets origin calls x) :
    PeerViews.Agrees x.views.manager.peers x.views.nodePeers := by
  refine Runs.run_invariant (motive := fun x => PeerViews.Agrees x.views.manager.peers x.views.nodePeers) ?_ ?_ path
  · cases direction with
    | inbound | outbound => exact agrees
  · intro x event next answer before _ ran
    exact outcome_agrees before (turn_outcome ran)

-- No entry, and a list of the node in which every address is that of an entry.
def Gone (addr : SocketAddr) (views : PeerViews) : Prop :=
  addr ∉ views.manager.peers ∧ PeerViews.Agrees views.manager.peers views.nodePeers

def Counted (addr : SocketAddr) (views : PeerViews) : Prop :=
  ∃ entry, views.manager.peers.lookup addr = some entry ∧
    ∃ peer ∈ views.nodePeers, peer.address = entry.address.toString

theorem entry_counted (agrees : PeerViews.Agrees origin.manager.peers origin.nodePeers)
    (inside : addr ∈ origin.manager.peers) : Counted addr origin := by
  obtain ⟨entry,stored⟩ := Finmap.mem_iff.mp inside
  exact ⟨entry,stored,(agrees.listed _).mpr ⟨entry.bestHeight,addr,entry,stored,rfl,rfl⟩⟩

-- A handler that has returned, while other tasks leave the entry of its connection
-- alone, or at most take it away.
theorem peer_exit_exact (direction : Direction) (addr : SocketAddr) {listenAddr : SocketAddr} {maxPeers : Nat}
    (reached : PeerViews.Ran listenAddr maxPeers earlier origin) :
    (∀ calls x result, Ran direction addr (Leaves addr) origin calls x → x.stage = .returned result →
      (Gone addr x.views ↔ Clean addr origin calls) ∧ (¬ Clean addr origin calls → Counted addr x.views)) ∧
    ∀ calls x result, Ran direction addr (Spares addr) origin calls x → x.stage = .returned result →
      Clean addr origin calls → Gone addr x.views := by
  have start := PeerViews.run_agrees reached
  constructor
  · intro calls x result path stage
    have agrees := run_agrees start path
    have standing := run_standing path
    simp only [Standing,stage] at standing
    obtain ⟨absent,present⟩ := standing
    have leaves : ∀ x event, Leaves addr x event → Leaves addr x event := fun _ _ => id
    have spares : ∀ x event, Leaves addr x event → Spares addr x event := by
      intro x event
      cases event with
      | others => exact Iff.mp
      | wrote | got => exact fun _ => trivial
    refine ⟨⟨?_,fun clean => ⟨absent spares clean,agrees⟩⟩,fun unclean => entry_counted agrees (present leaves unclean)⟩
    intro gone
    by_contra unclean
    exact gone.1 (present leaves unclean)
  · intro calls x result path stage clean
    have standing := run_standing path
    simp only [Standing,stage] at standing
    exact ⟨standing.1 (fun _ _ => id) clean,run_agrees start path⟩

theorem result_returned {result : Except PeerError Unit} (found : stage.result = some result) :
    stage = .returned result := by
  cases stage with
  | returned => cases found; rfl
  | greeting | awaiting | writing => cases found

-- A connection and the peer that it enters.
def client : SocketAddr := .v4 0x7f000001 40000
def entered : List ConnectedPeer := [⟨client,.v4 0xcb007105 30303,3,0,1⟩]
def shown : List Peer := [⟨"203.0.113.5:30303",3,"203.0.113.5:30303"⟩]
def moment (values : List ConnectedPeer) (intoValues : List Peer) : Moment :=
  ⟨0,0,⟨values,intoValues⟩,Node.inMemory reference,[]⟩
def emptyViews : PeerViews := .start (.v4 0x7f000001 30303) 16

def greeting : HandlerEvent := .got (.ok (.handshake 1 3 0 "203.0.113.5:30303")) (moment entered shown)
def brokenPipe : HandlerEvent := .wrote (.error (.io "Broken pipe"))

def brokenRun : Direction → List HandlerEvent
  | .inbound => [greeting,brokenPipe]
  | .outbound => [.wrote (.ok ()),greeting,brokenPipe]

def alone : HandlerEvent → Bool
  | .others _ _ => false
  | _ => true

theorem alone_run {events : List HandlerEvent} (each : ∀ event ∈ events, alone event = true)
    (fed : Runs.feed (Handler.turn direction addr) (.start direction views) events = some (x,answers)) :
    Ran direction addr (Leaves addr) views (events.zip answers) x := by
  have path : Runs.Run (Handler.turn direction addr) (fun _ event => alone event = true) (.start direction views)
      (events.zip answers) x :=
    (Runs.feed_run fed).1.only fun call member => each call.1 (List.of_mem_zip member).1
  refine path.weaken ?_
  intro x event
  cases event with
  | others => exact fun apart => by cases apart
  | wrote | got => exact fun _ => trivial

theorem failed_write_leaves_peer : (∀ direction, ∃ calls x e, Ran direction client (Leaves client) emptyViews calls x ∧
      x.stage = .returned (.error e) ∧ Counted client x.views) ∧
    ¬ ∀ direction addr calls x result, Ran direction addr (Leaves addr) emptyViews calls x →
      x.stage = .returned result → Gone addr x.views := by
  have left : ∀ direction, ∃ calls x e, Ran direction client (Leaves client) emptyViews calls x ∧
      x.stage = .returned (.error e) ∧ Counted client x.views := by
    intro direction
    have each : ∀ event ∈ brokenRun direction, alone event = true := by cases direction <;> decide
    have fed : (Runs.feed (Handler.turn direction client) (.start direction emptyViews) (brokenRun direction)).map
        (fun pair => (pair.1.stage.result,decide (client ∈ pair.1.views.manager.peers))) =
        some (some (.error (.io "Broken pipe")),true) := by cases direction <;> decide +kernel
    obtain ⟨⟨x,answers⟩,ran,equal⟩ := Option.map_eq_some_iff.mp fed
    obtain ⟨stage,inside⟩ := Prod.mk.inj equal
    have path := alone_run each ran
    have fresh : PeerViews.Agrees emptyViews.manager.peers emptyViews.nodePeers := PeerViews.run_agrees .nil
    exact ⟨_,x,_,path,result_returned stage,entry_counted (run_agrees fresh path) (of_decide_eq_true inside)⟩
  refine ⟨left,fun gone => ?_⟩
  obtain ⟨calls,x,e,path,stage,entry,stored,_⟩ := left .inbound
  exact (gone _ _ _ _ _ path stage).1 (Finmap.mem_iff.mpr ⟨entry,stored⟩)

theorem peer_exit_exact_closed : ∃ calls x, Ran .inbound client (Leaves client) emptyViews calls x ∧
    x.stage = .returned (.ok ()) ∧ Gone client x.views := by
  let events : List HandlerEvent :=
    [greeting,.wrote (.ok ()),.wrote (.ok ()),.got (.error .peerDisconnected) (moment [] [])]
  have each : ∀ event ∈ events, alone event = true := by decide
  have fed : (Runs.feed (Handler.turn .inbound client) (.start .inbound emptyViews) events).map
      (fun pair => pair.1.stage.result) = some (some (.ok ())) := by decide +kernel
  obtain ⟨⟨x,answers⟩,ran,stage⟩ := Option.map_eq_some_iff.mp fed
  have path := alone_run each ran
  have stopped := result_returned stage
  have fresh : PeerViews.Ran (.v4 0x7f000001 30303) 16 [] emptyViews := .nil
  have clean : Clean client emptyViews (events.zip answers) := by
    have answered : answers = [(),(),(),()] := by
      have length := (Runs.feed_run ran).2
      match answers,length with
      | [_,_,_,_],_ => rfl
    rw [answered,Clean,if_pos (by decide)]
    decide
  exact ⟨_,x,path,stopped,((peer_exit_exact .inbound client fresh).1 _ x _ path stopped).1.mpr clean⟩

end PeerExit

end BlindEye
