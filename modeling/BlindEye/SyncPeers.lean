import BlindEye.PeerExit
import BlindEye.Sync

namespace BlindEye

namespace P2pManager

-- The peers that `synchronize_blocks` collects, each with its largest height.
def recordedHeights (values : List ConnectedPeer) : HashMap SocketAddr UInt64 :=
  values.foldl
    (fun deduped peer =>
      FiniteMap.modifyOr deduped peer.address (fun height => max height peer.bestHeight) peer.bestHeight)
    ∅

-- `values` and `order` are the orders in which the two hash maps are walked.
structure SyncOrder (peers : PeerTable) (values : List ConnectedPeer) (order : List (SocketAddr × UInt64)) :
    Prop where
  yields : FiniteMap.Yields peers values
  lists : FiniteMap.Lists (recordedHeights values) order

end P2pManager

-- Where `synchronize_blocks` stands with the peer whose turn it is.
inductive Visit where
  | connecting (bestHeight : UInt64)
  | greeting (bestHeight : UInt64)
  | awaiting (bestHeight : UInt64)
  | requesting (bestHeight : UInt64)
  | receiving (requestCount receivedBlocks : UInt32)
  | adding (requestCount receivedBlocks : UInt32) (block : Block) (previousHeight : UInt64)
  | added (requestCount receivedBlocks : UInt32) (previousHeight : UInt64) (accepted : Bool)
  | answering (requestCount receivedBlocks : UInt32) (msg : PeerMessage) (breaks : Bool)

inductive SyncStage where
  | choosing
  | visiting (addr : SocketAddr) (visit : Visit)
  | returned (result : Except PeerError UInt64)

-- One call of `synchronize_blocks`, with the peers whose turn is still to come.
structure SyncTask where
  manager : P2pManager
  node : Node
  peers : List (SocketAddr × UInt64)
  localHeight : UInt64
  importedBlocks : UInt64
  stage : SyncStage

-- Other tasks change the table and the node in any way between two sections.
inductive SyncEvent where
  | others (manager : P2pManager) (node : Node)
  | took
  | connected (result : Except String Unit)
  | wrote (result : Except PeerError Unit) (timestamp : UInt64)
  | got (result : Except P2pError PeerMessage) (values : List ConnectedPeer)
  | imported (disk : Node.Disk)
  | counted

-- What can be seen of a section: a turn with the local height, a message that is
-- written, whether or not it arrives, and a message read by the receive loop.
inductive SyncReply where
  | silent
  | turned (addr : SocketAddr) (localHeight : UInt64)
  | wrote (addr : SocketAddr) (msg : PeerMessage)
  | received (addr : SocketAddr) (msg : PeerMessage)

namespace SyncTask

def start (manager : P2pManager) (node : Node) (peers : List (SocketAddr × UInt64)) : SyncTask :=
  ⟨manager,node,peers,node.blockchain.currentHeight,0,.choosing⟩

def visits (x : SyncTask) (addr : SocketAddr) (visit : Visit) : SyncTask := { x with stage := .visiting addr visit }
def leaves (x : SyncTask) : SyncTask := { x with stage := .choosing }
def returns (x : SyncTask) (result : Except PeerError UInt64) : SyncTask := { x with stage := .returned result }

-- The `?` behind a write.
def tries (x : SyncTask) (result : Except PeerError Unit) (next : SyncTask) : SyncTask :=
  match result with
  | .ok () => next
  | .error e => x.returns (.error e)

-- The test of the receive loop.
def receives (x : SyncTask) (addr : SocketAddr) (requestCount receivedBlocks : UInt32) : SyncTask :=
  if receivedBlocks < requestCount then x.visits addr (.receiving requestCount receivedBlocks) else x.leaves

-- A message in the receive loop. The height of the node is read before a block is
-- added.
def hears (x : SyncTask) (addr : SocketAddr) (requestCount receivedBlocks : UInt32) (values : List ConnectedPeer) :
    PeerMessage → Option SyncTask
  | .block block =>
    some (x.visits addr (.adding requestCount receivedBlocks block x.node.blockchain.currentHeight))
  | .getPeers =>
    if FiniteMap.Yields x.manager.peers values then
      let peers := values.map fun peer => peer.address.toString
      some (x.visits addr (.answering requestCount receivedBlocks (.peers peers) false))
    else none
  | .ping nonce => some (x.visits addr (.answering requestCount receivedBlocks (.pong nonce) true))
  | .peers _ | .pong _ => some (x.receives addr requestCount receivedBlocks)
  | _ => some x.leaves

def visit (c : Crates) (x : SyncTask) (addr : SocketAddr) : Visit → SyncEvent → Option (SyncTask × SyncReply)
  | .connecting bestHeight,.connected (.ok ()) => some (x.visits addr (.greeting bestHeight),.silent)
  | .connecting _,.connected (.error _) => some (x.leaves,.silent)
  | .greeting bestHeight,.wrote result timestamp =>
    let handshake := x.manager.localHandshake x.node.blockchain.currentHeight timestamp
    some (x.tries result (x.visits addr (.awaiting bestHeight)),.wrote addr handshake)
  | .awaiting bestHeight,.got (.ok (.handshake _ _ _ _)) _ => some (x.visits addr (.requesting bestHeight),.silent)
  | .awaiting _,.got (.ok _) _ => some (x.returns (.error (.p2p .invalidMessage)),.silent)
  | .awaiting _,.got (.error e) _ => some (x.returns (.error (.p2p e)),.silent)
  | .requesting bestHeight,.wrote result _ =>
    let requestCount := Sync.requestCount bestHeight x.localHeight
    let request := PeerMessage.getHeaders (x.localHeight + 1) requestCount
    some (x.tries result (x.receives addr requestCount 0),.wrote addr request)
  | .receiving requestCount receivedBlocks,.got (.ok msg) values =>
    (x.hears addr requestCount receivedBlocks values msg).map fun next => (next,.received addr msg)
  | .receiving _ _,.got (.error _) _ => some (x.leaves,.silent)
  | .adding requestCount receivedBlocks block previousHeight,.imported disk =>
    (x.node.submitBlock c block).map fun (node,answer) =>
      let accepted := (answer.bind fun _ => Node.saveState disk).toBool
      ({ x with node, stage := .visiting addr (.added requestCount receivedBlocks previousHeight accepted) },.silent)
  | .added requestCount receivedBlocks previousHeight accepted,.counted =>
    let newHeight := x.node.blockchain.currentHeight
    let x :=
      if accepted ∧ newHeight > previousHeight then
        { x with importedBlocks := x.importedBlocks + (newHeight - previousHeight), localHeight := newHeight }
      else x
    some (x.receives addr requestCount (receivedBlocks + 1),.silent)
  | .answering requestCount receivedBlocks msg breaks,.wrote result _ =>
    some (x.tries result (if breaks then x.leaves else x.receives addr requestCount receivedBlocks),.wrote addr msg)
  | _,_ => none

def turn (c : Crates) (x : SyncTask) (event : SyncEvent) : Option (SyncTask × SyncReply) :=
  match event,x.stage with
  | .others manager node,_ => some ({ x with manager, node },.silent)
  | .took,.choosing =>
    match x.peers with
    | [] => some (x.returns (.ok x.importedBlocks),.silent)
    | (addr,bestHeight) :: peers =>
      let x := { x with peers }
      some (if bestHeight > x.localHeight then x.visits addr (.connecting bestHeight) else x,
        .turned addr x.localHeight)
  | event,.visiting addr visit => x.visit c addr visit event
  | _,_ => none

end SyncTask

namespace SyncPeers
open SyncTask (start turn)
open PeerExit (isGreeting)
open PeerViews (highest highest_exact)

-- What the calls tell about one peer: the local heights at its turns, the counts
-- of the requests written to it, and its messages in the receive loop.
structure Tally where
  turns : List UInt64
  requests : List UInt32
  heard : List PeerMessage

def Tally.note (addr : SocketAddr) (t : Tally) : SyncReply → Tally
  | .silent => t
  | .turned other localHeight => if other = addr then { t with turns := t.turns ++ [localHeight] } else t
  | .wrote other msg =>
    match msg with
    | .getHeaders _ count => if other = addr then { t with requests := t.requests ++ [count] } else t
    | _ => t
  | .received other msg => if other = addr then { t with heard := t.heard ++ [msg] } else t

def tally (addr : SocketAddr) (calls : List (SyncEvent × SyncReply)) : Tally :=
  calls.foldl (fun t call => t.note addr call.2) ⟨[],[],[]⟩

@[simp] theorem tally_snoc (addr : SocketAddr) (calls : List (SyncEvent × SyncReply)) (call : SyncEvent × SyncReply) :
    tally addr (calls ++ [call]) = (tally addr calls).note addr call.2 := by simp [tally]

-- Blocks count, three kinds of messages do not, and all others end the loop.
inductive Kind where
  | counted
  | uncounted
  | last
  deriving DecidableEq

def kind : PeerMessage → Kind
  | .block _ => .counted
  | .getPeers | .peers _ | .pong _ => .uncounted
  | .handshake _ _ _ _ | .getBlocks _ | .transaction _ | .getHeaders _ _ | .ping _ => .last

def ofKind (wanted : Kind) (heard : List PeerMessage) : Nat := heard.countP fun msg => kind msg = wanted

@[simp] theorem ofKind_nil (wanted : Kind) : ofKind wanted [] = 0 := rfl

@[simp] theorem ofKind_snoc (wanted : Kind) (heard : List PeerMessage) (msg : PeerMessage) :
    ofKind wanted (heard ++ [msg]) = ofKind wanted heard + if kind msg = wanted then 1 else 0 := by
  simp [ofKind,List.countP_cons]

theorem heard_kinds (heard : List PeerMessage) :
    heard.length = ofKind .counted heard + ofKind .uncounted heard + ofKind .last heard := by
  induction heard using List.reverseRecOn with
  | nil => rfl
  | append_singleton heard msg ih =>
    rw [List.length_append,ih]
    simp only [ofKind_snoc]
    cases kind msg with
    | counted | uncounted | last => simp; omega

def isRequest : PeerMessage → Bool
  | .getHeaders _ _ => true
  | _ => false

-- Everything that one section of a visit can do.
inductive Step (x : SyncTask) (addr : SocketAddr) : Visit → SyncEvent → SyncTask → SyncReply → Prop where
  | reached : Step x addr (.connecting h) (.connected (.ok ())) (x.visits addr (.greeting h)) .silent
  | refused : Step x addr (.connecting h) (.connected (.error e)) x.leaves .silent
  | greeted : isRequest msg = false →
      Step x addr (.greeting h) (.wrote result timestamp) (x.tries result (x.visits addr (.awaiting h)))
        (.wrote addr msg)
  | met : isGreeting msg = true →
      Step x addr (.awaiting h) (.got (.ok msg) values) (x.visits addr (.requesting h)) .silent
  | stranger : isGreeting msg = false →
      Step x addr (.awaiting h) (.got (.ok msg) values) (x.returns (.error (.p2p .invalidMessage))) .silent
  | unheard : Step x addr (.awaiting h) (.got (.error e) values) (x.returns (.error (.p2p e))) .silent
  | asked : Step x addr (.requesting h) (.wrote result timestamp) (x.tries result (x.receives addr count 0))
      (.wrote addr (.getHeaders first count))
  | block : kind msg = .counted →
      Step x addr (.receiving n k) (.got (.ok msg) values) (x.visits addr (.adding n k block height))
        (.received addr msg)
  | queried : kind msg = .uncounted → isRequest reply = false →
      Step x addr (.receiving n k) (.got (.ok msg) values) (x.visits addr (.answering n k reply false))
        (.received addr msg)
  | pinged : kind msg = .last → isRequest reply = false →
      Step x addr (.receiving n k) (.got (.ok msg) values) (x.visits addr (.answering n k reply true))
        (.received addr msg)
  | passed : kind msg = .uncounted →
      Step x addr (.receiving n k) (.got (.ok msg) values) (x.receives addr n k) (.received addr msg)
  | broke : kind msg = .last → Step x addr (.receiving n k) (.got (.ok msg) values) x.leaves (.received addr msg)
  | closed : Step x addr (.receiving n k) (.got (.error e) values) x.leaves .silent
  | imported {y : SyncTask} : y.peers = x.peers →
      Step x addr (.adding n k block height) (.imported disk) (y.visits addr (.added n k height accepted)) .silent
  | counted {y : SyncTask} : y.peers = x.peers →
      Step x addr (.added n k height accepted) .counted (y.receives addr n (k + 1)) .silent
  | answered : Step x addr (.answering n k msg breaks) (.wrote result timestamp)
      (x.tries result (if breaks then x.leaves else x.receives addr n k)) (.wrote addr msg)

-- Everything that one section can do.
inductive Turned (x : SyncTask) : SyncEvent → SyncTask → SyncReply → Prop where
  | others : Turned x (.others manager node) { x with manager, node } .silent
  | finished : x.stage = .choosing → x.peers = [] → Turned x .took (x.returns (.ok x.importedBlocks)) .silent
  | chosen : x.stage = .choosing → x.peers = (addr,h) :: peers → x.localHeight < h →
      Turned x .took (SyncTask.visits { x with peers } addr (.connecting h)) (.turned addr x.localHeight)
  | passed : x.stage = .choosing → x.peers = (addr,h) :: peers → ¬ x.localHeight < h →
      Turned x .took (SyncTask.leaves { x with peers }) (.turned addr x.localHeight)
  | visited : x.stage = .visiting addr visit → Step x addr visit event next reply → Turned x event next reply

variable {c : Crates} {willing : SocketAddr → Prop} {order : List (SocketAddr × UInt64)} {x next : SyncTask}
  {event : SyncEvent} {reply : SyncReply} {calls : List (SyncEvent × SyncReply)} {addr other : SocketAddr}
  {t : Tally} {visit : Visit} {manager : P2pManager} {node : Node} {requestCount receivedBlocks : UInt32}

-- A peer is willing if it accepts the connection and handshakes.
def Keeps (willing : SocketAddr → Prop) (x : SyncTask) (event : SyncEvent) : Prop :=
  match x.stage,event with
  | .visiting addr (.connecting _),.connected (.error _) => ¬ willing addr
  | .visiting addr (.greeting _),.wrote (.error _) _ => ¬ willing addr
  | .visiting addr (.awaiting _),.got (.ok msg) _ => willing addr ↔ isGreeting msg = true
  | .visiting addr (.awaiting _),.got (.error _) _ => ¬ willing addr
  | _,_ => True

-- The receive loop of a peer that has been asked once.
structure Loop (t : Tally) (requestCount : UInt32) (blocks ends : Nat) : Prop where
  turns : ∃ l, t.turns = [l]
  requests : t.requests = [requestCount]
  counted : ofKind .counted t.heard = blocks
  last : ofKind .last t.heard = ends
  within : blocks ≤ requestCount.toNat

-- What has been seen of a peer at a visit.
def Fits (bestHeight : UInt64) (t : Tally) : Visit → Prop
  | .connecting h | .greeting h | .awaiting h | .requesting h =>
    h = bestHeight ∧ (∃ l, t.turns = [l]) ∧ t.requests = [] ∧ t.heard = []
  | .receiving requestCount receivedBlocks =>
    Loop t requestCount receivedBlocks.toNat 0 ∧ receivedBlocks < requestCount
  | .adding requestCount receivedBlocks _ _ | .added requestCount receivedBlocks _ _ =>
    Loop t requestCount (receivedBlocks.toNat + 1) 0 ∧ receivedBlocks < requestCount
  | .answering requestCount receivedBlocks msg breaks =>
    Loop t requestCount receivedBlocks.toNat (if breaks then 1 else 0) ∧ receivedBlocks < requestCount ∧
      isRequest msg = false

-- What has been seen of a peer behind its turn.
structure Over (willing : SocketAddr → Prop) (peer : SocketAddr × UInt64) (t : Tally) : Prop where
  turned : ∃ l, t.turns = [l] ∧ (l < peer.2 → willing peer.1 → t.requests ≠ [])
  modest : ∀ count ∈ t.requests, ofKind .counted t.heard ≤ count.toNat ∧ ofKind .last t.heard ≤ 1

def After (willing : SocketAddr → Prop) (peer : SocketAddr × UInt64) (t : Tally) : SyncStage → Prop
  | .visiting _ visit => Fits peer.2 t visit
  | .choosing | .returned _ => Over willing peer t

def visited : SyncStage → Option SocketAddr
  | .visiting addr _ => some addr
  | _ => none

-- Where a peer of the list stands.
structure Stands (willing : SocketAddr → Prop) (x : SyncTask) (peer : SocketAddr × UInt64) (t : Tally) : Prop where
  pending : peer.1 ∈ x.peers.map Prod.fst → t = ⟨[],[],[]⟩ ∧ visited x.stage ≠ some peer.1
  current : visited x.stage = some peer.1 → After willing peer t x.stage
  past : peer.1 ∉ x.peers.map Prod.fst → visited x.stage ≠ some peer.1 → Over willing peer t

theorem Loop.past {blocks ends : Nat} {peer : SocketAddr × UInt64} (loop : Loop t requestCount blocks ends)
    (few : ends ≤ 1) : Over willing peer t := by
  obtain ⟨⟨l,turns⟩,requests,counted,last,within⟩ := loop
  refine ⟨⟨l,turns,fun _ _ => by simp [requests]⟩,?_⟩
  intro count member
  rw [requests] at member
  obtain rfl := List.mem_singleton.mp member
  omega

theorem Loop.after (loop : Loop t requestCount receivedBlocks.toNat 0) (peer : SocketAddr × UInt64) :
    After willing peer t (x.receives addr requestCount receivedBlocks).stage := by
  unfold SyncTask.receives
  split
  · rename_i more
    exact ⟨loop,more⟩
  · exact loop.past (Nat.zero_le _)

theorem visit_step (ran : x.visit c addr visit event = some (next,reply)) : Step x addr visit event next reply := by
  cases visit with
  | connecting h =>
    cases event with
    | connected result =>
      cases result with
      | ok => cases ran; exact .reached
      | error => cases ran; exact .refused
    | others | took | wrote | got | imported | counted => cases ran
  | greeting h =>
    cases event with
    | wrote => cases ran; exact .greeted rfl
    | others | took | connected | got | imported | counted => cases ran
  | awaiting h =>
    cases event with
    | got result values =>
      cases result with
      | error => cases ran; exact .unheard
      | ok msg =>
        cases msg with
        | handshake => cases ran; exact .met rfl
        | getPeers | peers | getBlocks | block | transaction | getHeaders | ping | pong =>
          cases ran
          exact .stranger rfl
    | others | took | connected | wrote | imported | counted => cases ran
  | requesting h =>
    cases event with
    | wrote => cases ran; exact .asked
    | others | took | connected | got | imported | counted => cases ran
  | receiving n k =>
    cases event with
    | got result values =>
      cases result with
      | error => cases ran; exact .closed
      | ok msg =>
        obtain ⟨after,heard,equal⟩ := Option.map_eq_some_iff.mp ran
        cases equal
        cases msg with
        | block => cases heard; exact .block rfl
        | getPeers =>
          simp only [SyncTask.hears] at heard
          split at heard
          · cases heard; exact .queried rfl rfl
          · cases heard
        | ping => cases heard; exact .pinged rfl rfl
        | peers | pong => cases heard; exact .passed rfl
        | handshake | getBlocks | transaction | getHeaders => cases heard; exact .broke rfl
    | others | took | connected | wrote | imported | counted => cases ran
  | adding n k block height =>
    cases event with
    | imported disk =>
      obtain ⟨⟨node,answer⟩,_,equal⟩ := Option.map_eq_some_iff.mp ran
      cases equal
      have same : SyncTask.peers { x with node } = x.peers := rfl
      exact .imported same
    | others | took | connected | wrote | got | counted => cases ran
  | added n k height accepted =>
    cases event with
    | counted =>
      cases ran
      refine .counted ?_
      split
      · rfl
      · rfl
    | others | took | connected | wrote | got | imported => cases ran
  | answering n k msg breaks =>
    cases event with
    | wrote => cases ran; exact .answered
    | others | took | connected | got | imported | counted => cases ran

def about (addr : SocketAddr) : SyncReply → Prop
  | .silent => True
  | .turned other _ | .wrote other _ | .received other _ => other = addr

theorem note_other (told : about addr reply) (apart : other ≠ addr) (t : Tally) : t.note other reply = t := by
  cases reply with
  | silent => rfl
  | turned | received =>
    obtain rfl := told
    exact if_neg apart.symm
  | wrote _ msg =>
    obtain rfl := told
    cases msg with
    | getHeaders => exact if_neg apart.symm
    | handshake | getPeers | peers | getBlocks | block | transaction | ping | pong => rfl

-- A section of a visit leaves the other peers alone.
structure Inside (x : SyncTask) (addr : SocketAddr) (next : SyncTask) : Prop where
  peers : next.peers = x.peers
  stays : ∀ other, visited next.stage = some other → other = addr

theorem inside_visits : Inside x addr (x.visits addr visit) := by
  refine ⟨rfl,?_⟩
  rintro other same
  cases same
  rfl

theorem inside_leaves : Inside x addr x.leaves := ⟨rfl,fun _ none => by cases none⟩

theorem inside_returns : Inside x addr (x.returns result) := ⟨rfl,fun _ none => by cases none⟩

theorem inside_receives : Inside x addr (x.receives addr requestCount receivedBlocks) := by
  unfold SyncTask.receives
  split
  · exact inside_visits
  · exact inside_leaves

theorem inside_tries (inside : Inside x addr next) : Inside x addr (x.tries result next) := by
  cases result with
  | ok => exact inside
  | error => exact inside_returns

theorem Inside.from (same : y.peers = x.peers) (inside : Inside y addr next) : Inside x addr next :=
  ⟨inside.peers.trans same,inside.stays⟩

theorem step_inside (step : Step x addr visit event next reply) : about addr reply ∧ Inside x addr next := by
  cases step with
  | reached | met => exact ⟨trivial,inside_visits⟩
  | refused | closed => exact ⟨trivial,inside_leaves⟩
  | stranger | unheard => exact ⟨trivial,inside_returns⟩
  | greeted => exact ⟨rfl,inside_tries inside_visits⟩
  | asked => exact ⟨rfl,inside_tries inside_receives⟩
  | block | queried | pinged => exact ⟨rfl,inside_visits⟩
  | passed => exact ⟨rfl,inside_receives⟩
  | broke => exact ⟨rfl,inside_leaves⟩
  | imported same => exact ⟨trivial,inside_visits.from same⟩
  | counted same => exact ⟨trivial,inside_receives.from same⟩
  | answered =>
    refine ⟨rfl,inside_tries ?_⟩
    split
    · exact inside_leaves
    · exact inside_receives

theorem after_tries {peer : SocketAddr × UInt64} (ended : (∃ e, result = .error e) → Over willing peer t)
    (went : result = .ok () → After willing peer t next.stage) :
    After willing peer t (x.tries result next).stage := by
  cases result with
  | ok => exact went rfl
  | error e => exact ended ⟨e,rfl⟩

theorem note_quiet (quiet : isRequest msg = false) : t.note addr (.wrote addr msg) = t := by
  cases msg with
  | getHeaders => cases quiet
  | handshake | getPeers | peers | getBlocks | block | transaction | ping | pong => rfl

theorem note_received : t.note addr (.received addr msg) = { t with heard := t.heard ++ [msg] } := if_pos rfl

-- A message in the loop.
theorem Loop.block {blocks ends : Nat} (loop : Loop t requestCount blocks ends) (counts : kind msg = .counted)
    (room : blocks < requestCount.toNat) :
    Loop (t.note addr (.received addr msg)) requestCount (blocks + 1) ends := by
  rw [note_received]
  obtain ⟨turns,requests,counted,last,_⟩ := loop
  exact ⟨turns,requests,by simp [counted,counts],by simp [last,counts],room⟩

theorem Loop.chat {blocks ends : Nat} (loop : Loop t requestCount blocks ends) (chats : kind msg = .uncounted) :
    Loop (t.note addr (.received addr msg)) requestCount blocks ends := by
  rw [note_received]
  obtain ⟨turns,requests,counted,last,within⟩ := loop
  exact ⟨turns,requests,by simp [counted,chats],by simp [last,chats],within⟩

theorem Loop.close {blocks ends : Nat} (loop : Loop t requestCount blocks ends) (closes : kind msg = .last) :
    Loop (t.note addr (.received addr msg)) requestCount blocks (ends + 1) := by
  rw [note_received]
  obtain ⟨turns,requests,counted,last,within⟩ := loop
  exact ⟨turns,requests,by simp [counted,closes],by simp [last,closes],within⟩

theorem step_after {h : UInt64} (step : Step x addr visit event next reply) (stage : x.stage = .visiting addr visit)
    (allowed : Keeps willing x event) (fits : Fits h t visit) :
    After willing (addr,h) (t.note addr reply) next.stage := by
  have unwilling : ¬ willing addr → (∃ l, t.turns = [l]) → t.requests = [] → Over willing (addr,h) t := by
    intro apart ⟨l,turns⟩ none
    refine ⟨⟨l,turns,fun _ will => absurd will apart⟩,?_⟩
    intro count member
    rw [none] at member
    cases member
  cases step with
  | reached => exact fits
  | refused =>
    simp only [Keeps,stage] at allowed
    exact unwilling allowed fits.2.1 fits.2.2.1
  | greeted quiet =>
    rw [note_quiet quiet]
    apply after_tries
    · rintro ⟨e,rfl⟩
      simp only [Keeps,stage] at allowed
      exact unwilling allowed fits.2.1 fits.2.2.1
    · exact fun _ => fits
  | met => exact fits
  | stranger apart =>
    simp only [Keeps,stage,apart] at allowed
    exact unwilling (fun will => by cases allowed.mp will) fits.2.1 fits.2.2.1
  | unheard =>
    simp only [Keeps,stage] at allowed
    exact unwilling allowed fits.2.1 fits.2.2.1
  | @asked _ _ _ count first =>
    obtain ⟨_,turns,requests,heard⟩ := fits
    have loop : Loop (t.note addr (.wrote addr (.getHeaders first count))) count (0 : UInt32).toNat 0 := by
      have noted : t.note addr (.wrote addr (.getHeaders first count)) =
          { t with requests := t.requests ++ [count] } := if_pos rfl
      rw [noted]
      exact ⟨turns,by simp [requests],by simp [heard],by simp [heard],Nat.zero_le _⟩
    exact after_tries (fun _ => loop.past (Nat.zero_le _)) fun _ => loop.after _
  | block counts =>
    obtain ⟨loop,more⟩ := fits
    exact ⟨loop.block counts more,more⟩
  | queried chats quiet =>
    obtain ⟨loop,more⟩ := fits
    exact ⟨loop.chat chats,more,quiet⟩
  | pinged closes quiet =>
    obtain ⟨loop,more⟩ := fits
    exact ⟨loop.close closes,more,quiet⟩
  | passed chats => exact (fits.1.chat chats).after _
  | broke closes => exact (fits.1.close closes).past (Nat.le_refl _)
  | closed => exact fits.1.past (Nat.zero_le _)
  | imported same => exact fits
  | @counted n k height accepted y same =>
    obtain ⟨loop,more⟩ := fits
    have grown : (k + 1).toNat = k.toNat + 1 := by
      have below : k.toNat < n.toNat := more
      have size := n.toNat_lt
      rw [UInt32.toNat_add]
      exact Nat.mod_eq_of_lt (show k.toNat + 1 < 2^32 by omega)
    exact Loop.after (grown ▸ loop) _
  | @answered n k msg breaks =>
    obtain ⟨loop,_,quiet⟩ := fits
    rw [note_quiet quiet]
    apply after_tries
    · intro _
      apply loop.past
      split
      · exact Nat.le_refl _
      · exact Nat.zero_le _
    · intro _
      cases breaks with
      | true => exact loop.past (Nat.le_refl _)
      | false => exact loop.after _

theorem turn_turned (ran : turn c x event = some (next,reply)) : Turned x event next reply := by
  cases stage : x.stage with
  | visiting addr visit =>
    cases event with
    | others => cases ran; exact .others
    | took | connected | wrote | got | imported | counted =>
      simp only [turn,stage] at ran
      exact .visited stage (visit_step ran)
  | choosing =>
    cases event with
    | others => cases ran; exact .others
    | took =>
      simp only [turn,stage] at ran
      split at ran
      · rename_i none
        cases ran
        exact .finished stage none
      · rename_i addr h peers first
        cases ran
        by_cases higher : x.localHeight < h
        · rw [if_pos higher]
          exact .chosen stage first higher
        · rw [if_neg higher]
          exact .passed stage first higher
    | connected | wrote | got | imported | counted => simp [turn,stage] at ran
  | returned result =>
    cases event with
    | others => cases ran; exact .others
    | took | connected | wrote | got | imported | counted => simp [turn,stage] at ran

structure Standing (willing : SocketAddr → Prop) (order : List (SocketAddr × UInt64)) (x : SyncTask)
    (calls : List (SyncEvent × SyncReply)) : Prop where
  distinct : (x.peers.map Prod.fst).Nodup
  listed : ∀ peer ∈ x.peers, peer ∈ order
  each : ∀ peer ∈ order, Stands willing x peer (tally peer.1 calls)

theorem Stands.same {peer : SocketAddr × UInt64} (stands : Stands willing x peer t) (peers : next.peers = x.peers)
    (stage : next.stage = x.stage) : Stands willing next peer t := by
  obtain ⟨pending,current,past⟩ := stands
  refine ⟨?_,?_,?_⟩
  · rw [peers,stage]; exact pending
  · rw [stage]; exact current
  · rw [peers,stage]; exact past

-- The peers of the list have different addresses.
theorem order_same (distinct : (order.map Prod.fst).Nodup) (one : (addr,h) ∈ order) (two : (addr,h') ∈ order) :
    h = h' := by
  have equal := List.inj_on_of_nodup_map distinct one two rfl
  cases equal
  rfl

theorem visited_standing (standing : Standing willing order x calls) (stage : x.stage = .visiting addr visit)
    (step : Step x addr visit event next reply) (allowed : Keeps willing x event) :
    Standing willing order next (calls ++ [(event,reply)]) := by
  obtain ⟨told,peers,stays⟩ := step_inside step
  have here : visited x.stage = some addr := by rw [stage]; rfl
  refine ⟨peers ▸ standing.distinct,peers ▸ standing.listed,?_⟩
  intro peer inside
  have stands := standing.each peer inside
  rw [tally_snoc]
  by_cases same : peer.1 = addr
  · subst same
    have fits := stands.current here
    rw [stage] at fits
    have after := step_after step stage allowed fits
    refine ⟨?_,fun _ => after,?_⟩
    · rw [peers]
      exact fun pending => absurd here (stands.pending pending).2
    · intro _ left
      cases ends : next.stage with
      | visiting other next =>
        rw [ends] at left stays
        exact absurd (congrArg some (stays other rfl)) left
      | choosing | returned =>
        rw [ends] at after
        exact after
  · have apart : visited next.stage ≠ some peer.1 := fun now => same (stays _ now)
    have before : visited x.stage ≠ some peer.1 := by
      rw [here]
      exact fun now => same (Option.some.inj now).symm
    rw [note_other told same]
    refine ⟨?_,fun now => absurd now apart,?_⟩
    · rw [peers]
      exact fun pending => ⟨(stands.pending pending).1,apart⟩
    · rw [peers]
      exact fun left _ => stands.past left before

-- The next peer of the list has its turn.
theorem taken_standing {peers : List (SocketAddr × UInt64)} {h : UInt64} (distinct : (order.map Prod.fst).Nodup)
    (standing : Standing willing order x calls) (choosing : x.stage = .choosing) (first : x.peers = (addr,h) :: peers)
    (left : next.peers = peers)
    (after : After willing (addr,h) ⟨[x.localHeight],[],[]⟩ next.stage)
    (stays : ∀ other, visited next.stage = some other → other = addr) :
    Standing willing order next (calls ++ [(.took,.turned addr x.localHeight)]) := by
  have keys := standing.distinct
  rw [first,List.map_cons,List.nodup_cons] at keys
  obtain ⟨once,keys⟩ := keys
  subst left
  refine ⟨keys,fun peer inside => standing.listed peer (first ▸ List.mem_cons_of_mem _ inside),?_⟩
  intro peer inside
  have stands := standing.each peer inside
  have none : visited x.stage ≠ some peer.1 := by
    rw [choosing]
    exact fun now => by cases now
  rw [tally_snoc]
  by_cases same : peer.1 = addr
  · obtain ⟨addr,h'⟩ := peer
    subst same
    have listed := standing.listed (addr,h) (first ▸ List.mem_cons_self)
    obtain rfl := order_same distinct listed inside
    have empty := (stands.pending (by rw [first]; exact List.mem_cons_self)).1
    have noted : (tally addr calls).note addr (.turned addr x.localHeight) = ⟨[x.localHeight],[],[]⟩ := by
      rw [empty]
      exact if_pos rfl
    rw [noted]
    refine ⟨fun pending => absurd pending once,fun _ => after,?_⟩
    intro _ left
    cases ends : next.stage with
    | visiting other =>
      rw [ends] at left stays
      exact absurd (congrArg some (stays other rfl)) left
    | choosing | returned =>
      rw [ends] at after
      exact after
  · have apart : visited next.stage ≠ some peer.1 := fun now => same (stays _ now)
    have told : about addr (.turned addr x.localHeight) := rfl
    rw [note_other told same]
    refine ⟨fun pending => ⟨?_,apart⟩,fun now => absurd now apart,fun left _ => stands.past ?_ none⟩
    · exact (stands.pending (by rw [first]; exact List.mem_cons_of_mem _ pending)).1
    · rw [first]
      intro again
      rcases List.mem_cons.mp again with here | later
      · exact same here
      · exact left later

theorem turned_standing (distinct : (order.map Prod.fst).Nodup) (standing : Standing willing order x calls)
    (allowed : Keeps willing x event) (turned : Turned x event next reply) :
    Standing willing order next (calls ++ [(event,reply)]) := by
  cases turned with
  | others =>
    refine ⟨standing.distinct,standing.listed,?_⟩
    intro peer inside
    rw [tally_snoc]
    exact (standing.each peer inside).same rfl rfl
  | finished choosing none =>
    refine ⟨standing.distinct,standing.listed,?_⟩
    intro peer inside
    have stands := standing.each peer inside
    rw [tally_snoc]
    have left : peer.1 ∉ x.peers.map Prod.fst := by
      rw [none]
      exact List.not_mem_nil
    have past := stands.past left (by rw [choosing]; exact fun now => by cases now)
    exact ⟨fun pending => absurd pending left,nofun,fun _ _ => past⟩
  | chosen choosing first higher =>
    refine taken_standing distinct standing choosing first rfl ?_ ?_
    · exact ⟨rfl,⟨_,rfl⟩,rfl,rfl⟩
    · rintro other now
      cases now
      rfl
  | passed choosing first lower =>
    refine taken_standing distinct standing choosing first rfl ?_ ?_
    · refine ⟨⟨_,rfl,fun higher => absurd higher lower⟩,?_⟩
      exact fun _ none => absurd none List.not_mem_nil
    · rintro other now
      cases now
  | visited stage step => exact visited_standing standing stage step allowed

theorem run_standing (distinct : (order.map Prod.fst).Nodup)
    (path : Runs.Run (turn c) (Keeps willing) (start manager node order) calls x) :
    Standing willing order x calls := by
  induction path with
  | nil =>
    refine ⟨distinct,fun _ => id,?_⟩
    intro peer inside
    have pending : peer.1 ∈ order.map Prod.fst := List.mem_map_of_mem inside
    exact ⟨fun _ => ⟨rfl,nofun⟩,nofun,fun left => absurd pending left⟩
  | step _ allowed ran ih => exact turned_standing distinct ih allowed (turn_turned ran)

-- A section in which an error leaves the function.
def givesUp : SyncStage → SyncEvent → Bool
  | .visiting _ (.awaiting _),.got (.ok msg) _ => !isGreeting msg
  | .visiting _ (.awaiting _),.got (.error _) _ => true
  | .visiting _ _,.wrote (.error _) _ => true
  | _,_ => false

def goesOn (x : SyncTask) : Prop := ∀ result, x.stage ≠ .returned result

theorem receives_goesOn : goesOn (x.receives addr requestCount receivedBlocks) := by
  unfold SyncTask.receives
  split
  · exact fun _ => nofun
  · exact fun _ => nofun

theorem step_gives (step : Step x addr visit event next reply) :
    (givesUp (.visiting addr visit) event = true ∧ ∃ e, next = x.returns (.error e)) ∨
      (givesUp (.visiting addr visit) event = false ∧ goesOn next) := by
  cases step with
  | reached | refused | block | queried | pinged | broke | closed | imported => exact .inr ⟨rfl,fun _ => nofun⟩
  | met greeting => exact .inr ⟨by simp [givesUp,greeting],fun _ => nofun⟩
  | stranger apart => exact .inl ⟨by simp [givesUp,apart],_,rfl⟩
  | unheard => exact .inl ⟨rfl,_,rfl⟩
  | passed | counted => exact .inr ⟨rfl,receives_goesOn⟩
  | @greeted _ _ result =>
    cases result with
    | ok => exact .inr ⟨rfl,fun _ => nofun⟩
    | error e => exact .inl ⟨rfl,e,rfl⟩
  | @asked _ result =>
    cases result with
    | ok => exact .inr ⟨rfl,receives_goesOn⟩
    | error e => exact .inl ⟨rfl,e,rfl⟩
  | @answered _ _ _ breaks result =>
    cases result with
    | error e => exact .inl ⟨rfl,e,rfl⟩
    | ok =>
      cases breaks with
      | true => exact .inr ⟨rfl,fun _ => nofun⟩
      | false => exact .inr ⟨rfl,receives_goesOn⟩

variable {peers : PeerTable} {values : List ConnectedPeer} {peer : ConnectedPeer} {h : UInt64}

theorem recorded_exact : (P2pManager.recordedHeights values).lookup addr =
    highest (values.filter fun peer => peer.address = addr) :=
  FiniteMap.lookup_gathered (fun peer : ConnectedPeer => peer.address)
    (fun height peer => max height peer.bestHeight) (fun peer => peer.bestHeight) values addr

-- The list has every peer of the table at the largest height recorded for its
-- address.
theorem order_records (possible : P2pManager.SyncOrder peers values order) (stored : peers.lookup k = some peer) :
    ∃ h, (peer.address,h) ∈ order ∧ peer.bestHeight ≤ h := by
  have member : peer ∈ values := (FiniteMap.yields_exact possible.yields).mpr ⟨k,stored⟩
  have among : peer ∈ values.filter fun other => other.address = peer.address := by simp [member]
  obtain ⟨empty,top⟩ := highest_exact (values.filter fun other => other.address = peer.address)
  cases recorded : highest (values.filter fun other => other.address = peer.address) with
  | none =>
    rw [empty recorded] at among
    cases among
  | some h =>
    exact ⟨h,(FiniteMap.lists_exact possible.lists).mpr (recorded_exact.trans recorded),
      (top h recorded).bound _ ⟨peer,among,rfl⟩⟩

theorem order_recorded (possible : P2pManager.SyncOrder peers values order) (listed : (addr,h) ∈ order) :
    ∃ k peer, peers.lookup k = some peer ∧ peer.address = addr ∧ peer.bestHeight = h := by
  have recorded := (FiniteMap.lists_exact possible.lists).mp listed
  rw [recorded_exact] at recorded
  obtain ⟨peer,member,height⟩ := ((highest_exact _).2 h recorded).one
  obtain ⟨inside,address⟩ := List.mem_filter.mp member
  obtain ⟨k,stored⟩ := (FiniteMap.yields_exact possible.yields).mp inside
  exact ⟨k,peer,stored,of_decide_eq_true address,height⟩

-- The local height when the turn of the peer comes, or would come.
def turnHeight (x : SyncTask) (t : Tally) : UInt64 := t.turns.head?.getD x.localHeight

-- When the call has returned, every willing peer above the local height is asked.
def Asked (peers : PeerTable) (willing : SocketAddr → Prop) (calls : List (SyncEvent × SyncReply)) (x : SyncTask) :
    Prop :=
  ∀ result, x.stage = .returned result → ∀ k peer, peers.lookup k = some peer → willing peer.address →
    turnHeight x (tally peer.address calls) < peer.bestHeight → (tally peer.address calls).requests ≠ []

def NobodyBehind (willing : SocketAddr → Prop) (x : SyncTask) : Prop :=
  ∀ peer ∈ x.peers, willing peer.1 → peer.2 ≤ x.localHeight

def Spares (willing : SocketAddr → Prop) (x : SyncTask) (event : SyncEvent) : Prop :=
  givesUp x.stage event = true → NobodyBehind willing x

theorem asked_exact (possible : P2pManager.SyncOrder peers values order) (standing : Standing willing order x calls)
    (returned : x.stage = .returned result) : Asked peers willing calls x ↔ NobodyBehind willing x := by
  have distinct := FiniteMap.lists_distinct possible.lists
  constructor
  · intro asked ⟨addr,h⟩ pending will
    have listed := standing.listed _ pending
    obtain ⟨k,peer,stored,rfl,rfl⟩ := order_recorded possible listed
    have empty := ((standing.each _ listed).pending (List.mem_map_of_mem pending)).1
    by_contra higher
    have above : turnHeight x (tally peer.address calls) < peer.bestHeight := by
      rw [empty]
      exact UInt64.not_le.mp higher
    exact asked result returned k peer stored will above (by rw [empty])
  · intro nobody result _ k peer stored will above
    obtain ⟨h,listed,bound⟩ := order_records possible stored
    have stands := standing.each _ listed
    by_cases pending : peer.address ∈ x.peers.map Prod.fst
    · obtain ⟨⟨addr,h'⟩,inside,same⟩ := List.mem_map.mp pending
      cases same
      obtain rfl := order_same distinct (standing.listed _ inside) listed
      have lower := nobody _ inside will
      rw [(stands.pending pending).1] at above
      exact absurd (UInt64.le_trans bound lower) (UInt64.not_le.mpr above)
    · have none : visited x.stage ≠ some peer.address := by
        rw [returned]
        exact nofun
      obtain ⟨l,turns,asked⟩ := (stands.past pending none).turned
      have height : turnHeight x (tally peer.address calls) = l := by rw [turnHeight,turns]; rfl
      rw [height] at above
      exact asked (UInt64.lt_of_lt_of_le above bound) will

theorem goesOn_asked (goes : goesOn x) : Asked peers willing calls x :=
  fun result returned => absurd returned (goes result)

theorem turned_exact (possible : P2pManager.SyncOrder peers values order) (asked : Asked peers willing calls x)
    (standing : Standing willing order next (calls ++ [(event,reply)])) (turned : Turned x event next reply) :
    Asked peers willing (calls ++ [(event,reply)]) next ↔ Spares willing x event := by
  have quiet : givesUp x.stage event = false → Spares willing x event := by
    intro quiet gives
    rw [quiet] at gives
    cases gives
  cases turned with
  | others =>
    refine iff_of_true ?_ (quiet ?_)
    · intro result returned k peer stored will above
      rw [tally_snoc] at above ⊢
      exact asked result returned k peer stored will above
    · cases x.stage with
      | visiting addr visit =>
        cases visit with
        | connecting | greeting | awaiting | requesting | receiving | adding | added | answering => rfl
      | choosing | returned => rfl
  | finished choosing none =>
    refine iff_of_true ((asked_exact possible standing rfl).mpr ?_) (quiet (by rw [choosing]; rfl))
    intro peer pending
    change peer ∈ x.peers at pending
    rw [none] at pending
    cases pending
  | chosen choosing => exact iff_of_true (goesOn_asked fun _ => nofun) (quiet (by rw [choosing]; rfl))
  | passed choosing => exact iff_of_true (goesOn_asked fun _ => nofun) (quiet (by rw [choosing]; rfl))
  | visited stage step =>
    rcases step_gives step with ⟨gives,e,rfl⟩ | ⟨goes,on⟩
    · rw [asked_exact possible standing rfl,Spares,stage]
      exact ⟨fun nobody _ => nobody,fun nobody => nobody gives⟩
    · exact iff_of_true (goesOn_asked on) (quiet (by rw [stage]; exact goes))

-- What bounds the messages of one kind in the receive loop of a peer.
theorem standing_modest {peer : SocketAddr × UInt64} (standing : Standing willing order x calls)
    (inside : peer ∈ order) (member : count ∈ (tally peer.1 calls).requests) :
    ofKind .counted (tally peer.1 calls).heard ≤ count.toNat ∧ ofKind .last (tally peer.1 calls).heard ≤ 1 := by
  have stands := standing.each peer inside
  have loop : ∀ {n blocks ends}, Loop (tally peer.1 calls) n blocks ends → ends ≤ 1 →
      ofKind .counted (tally peer.1 calls).heard ≤ count.toNat ∧ ofKind .last (tally peer.1 calls).heard ≤ 1 :=
    by
    intro n blocks ends loop few
    have past : Over willing peer (tally peer.1 calls) := loop.past few
    exact past.modest count member
  by_cases pending : peer.1 ∈ x.peers.map Prod.fst
  · rw [(stands.pending pending).1] at member
    cases member
  · by_cases here : visited x.stage = some peer.1
    · have after := stands.current here
      cases stage : x.stage with
      | choosing | returned =>
        rw [stage] at here
        cases here
      | visiting addr visit =>
        rw [stage] at after
        cases visit with
        | connecting | greeting | awaiting | requesting =>
          rw [after.2.2.1] at member
          cases member
        | receiving | adding | added => exact loop after.1 (Nat.zero_le _)
        | answering n k msg breaks =>
          refine loop after.1 ?_
          split
          · exact Nat.le_refl _
          · exact Nat.zero_le _
    · exact (stands.past pending here).modest count member

-- A call of `synchronize_blocks` up to some moment, with the peers that are willing.
structure SyncRun (c : Crates) where
  manager : P2pManager
  node : Node
  values : List ConnectedPeer
  order : List (SocketAddr × UInt64)
  possible : P2pManager.SyncOrder manager.peers values order
  willing : SocketAddr → Prop
  calls : List (SyncEvent × SyncReply)
  last : SyncTask
  path : Runs.Run (turn c) (Keeps willing) (start manager node order) calls last

def SyncRun.task (run : SyncRun c) : SyncTask := start run.manager run.node run.order

def SyncRun.tally (run : SyncRun c) (addr : SocketAddr) : Tally := SyncPeers.tally addr run.calls

-- In every state that the run has been in.
def SyncRun.Asks (run : SyncRun c) : Prop :=
  ∀ earlier later mid, run.calls = earlier ++ later →
    Runs.Run (turn c) (Keeps run.willing) run.task earlier mid →
    Asked run.manager.peers run.willing earlier mid

-- In every section that the run has made.
def SyncRun.Spared (run : SyncRun c) : Prop :=
  Runs.Run (turn c) (fun x event => Keeps run.willing x event ∧ Spares run.willing x event) run.task run.calls
    run.last

-- All messages of the receive loop, and those that it does not count.
def SyncRun.Consumes (run : SyncRun c) (bound : UInt32 → Nat) : Prop :=
  ∀ peer ∈ run.order, ∀ count ∈ (run.tally peer.1).requests, (run.tally peer.1).heard.length ≤ bound count

def SyncRun.Chats (run : SyncRun c) (bound : UInt32 → Nat) : Prop :=
  ∀ peer ∈ run.order, ∀ count ∈ (run.tally peer.1).requests, ofKind .uncounted (run.tally peer.1).heard ≤ bound count

theorem SyncRun.standing (run : SyncRun c) : Standing run.willing run.order run.last run.calls :=
  run_standing (FiniteMap.lists_distinct run.possible.lists) run.path

theorem consumes_chats {run : SyncRun c} {bound : UInt32 → Nat} (consumes : run.Consumes bound) :
    run.Chats bound := by
  intro peer inside count member
  have all := consumes peer inside count member
  rw [heard_kinds] at all
  omega

theorem chats_consumes {run : SyncRun c} {bound : UInt32 → Nat} (chats : run.Chats bound) :
    run.Consumes fun count => count.toNat + bound count + 1 := by
  intro peer inside count member
  have few := chats peer inside count member
  have rest := standing_modest run.standing inside member
  rw [heard_kinds]
  simp only [SyncRun.tally] at few ⊢
  omega

-- The peers that should be asked are asked exactly when the function gives up only
-- where none of them is left, and the receive loop has a bound over some runs
-- exactly when the messages that it does not count have one.
theorem sync_peers_exact (c : Crates) : (∀ run : SyncRun c, run.Asks ↔ run.Spared) ∧
    ∀ wanted : SyncRun c → Prop, (∃ bound, ∀ run, wanted run → run.Consumes bound) ↔
      ∃ bound, ∀ run, wanted run → run.Chats bound := by
  constructor
  · rintro ⟨manager,node,values,order,possible,willing,calls,last,path⟩
    have distinct := FiniteMap.lists_distinct possible.lists
    refine Runs.run_exact_within (motive := Asked manager.peers willing) (fun _ => trivial) ?_ ?_ trivial path
    · exact goesOn_asked fun _ => nofun
    · intro calls x event next reply path asked allowed _ ran
      exact turned_exact possible asked (run_standing distinct (path.step allowed ran)) (turn_turned ran)
  · intro wanted
    constructor
    · rintro ⟨bound,all⟩
      exact ⟨bound,fun run chosen => consumes_chats (all run chosen)⟩
    · rintro ⟨bound,all⟩
      exact ⟨_,fun run chosen => chats_consumes (all run chosen)⟩

theorem run_snoc {origin : SyncTask} (path : Runs.Run (turn c) (Keeps willing) origin calls x) (event : SyncEvent)
    (ran : turn c x event = some (next,reply)) (allowed : Keeps willing x event) :
    Runs.Run (turn c) (Keeps willing) origin (calls ++ [(event,reply)]) next := path.step allowed ran

-- The first peer is connected to and greeted.
theorem greeted_run (c : Crates) (willing : SocketAddr → Prop) (manager : P2pManager) (addr : SocketAddr)
    (rest : List (SocketAddr × UInt64)) (higher : node.blockchain.currentHeight < h) : ∃ calls,
      Runs.Run (turn c) (Keeps willing) (start manager node ((addr,h) :: rest)) calls
        ((start manager node rest).visits addr (.awaiting h)) ∧
      tally addr calls = ⟨[node.blockchain.currentHeight],[],[]⟩ ∧
      ∀ other, other ≠ addr → tally other calls = ⟨[],[],[]⟩ := by
  let x : SyncTask := start manager node rest
  have took : turn c (start manager node ((addr,h) :: rest)) .took =
      some (x.visits addr (.connecting h),.turned addr node.blockchain.currentHeight) := by
    simp [turn,start,higher,x]
  have s1 : Runs.Run (turn c) (Keeps willing) _ _ _ := run_snoc .nil .took took trivial
  have s2 := run_snoc s1 (.connected (.ok ())) rfl trivial
  have s3 := run_snoc s2 (.wrote (.ok ()) 0) rfl trivial
  refine ⟨_,s3,?_,?_⟩
  · simp [tally,Tally.note,P2pManager.localHandshake]
  · intro other apart
    simp [tally,Tally.note,P2pManager.localHandshake,apart.symm]

-- A peer that answers the request with Peers messages.
theorem chatty_run (c : Crates) (willing : SocketAddr → Prop) (manager : P2pManager)
    (rest : List (SocketAddr × UInt64)) (higher : node.blockchain.currentHeight < h)
    (count : requestCount = Sync.requestCount h node.blockchain.currentHeight) (wanted : 0 < requestCount)
    (will : willing addr) (n : Nat) : ∃ calls,
      Runs.Run (turn c) (Keeps willing) (start manager node ((addr,h) :: rest)) calls
        ((start manager node rest).visits addr (.receiving requestCount 0)) ∧
      tally addr calls = ⟨[node.blockchain.currentHeight],[requestCount],List.replicate n (.peers [])⟩ := by
  let x : SyncTask := start manager node rest
  have receives : ∀ y : SyncTask, y.receives addr requestCount 0 = y.visits addr (.receiving requestCount 0) :=
    fun y => if_pos wanted
  induction n with
  | zero =>
    obtain ⟨calls,path,told,_⟩ := greeted_run c willing manager addr rest higher
    have s1 := run_snoc path (.got (.ok (.handshake 1 h 0 "")) []) rfl (iff_of_true will rfl)
    have asked : turn c (x.visits addr (.requesting h)) (.wrote (.ok ()) 0) =
        some (x.visits addr (.receiving requestCount 0),
          .wrote addr (.getHeaders (node.blockchain.currentHeight + 1) requestCount)) := by
      have answer : turn c (x.visits addr (.requesting h)) (.wrote (.ok ()) 0) =
          some ((x.visits addr (.requesting h)).receives addr (Sync.requestCount h node.blockchain.currentHeight) 0,
            .wrote addr (.getHeaders (node.blockchain.currentHeight + 1)
              (Sync.requestCount h node.blockchain.currentHeight))) := rfl
      rw [answer,← count,receives]
      rfl
    refine ⟨_,run_snoc s1 _ asked trivial,?_⟩
    rw [tally_snoc,tally_snoc,told]
    simp [Tally.note]
  | succ n ih =>
    obtain ⟨calls,path,told⟩ := ih
    have again : turn c (x.visits addr (.receiving requestCount 0)) (.got (.ok (.peers [])) []) =
        some (x.visits addr (.receiving requestCount 0),.received addr (.peers [])) := by
      have answer : turn c (x.visits addr (.receiving requestCount 0)) (.got (.ok (.peers [])) []) =
          some ((x.visits addr (.receiving requestCount 0)).receives addr requestCount 0,
            .received addr (.peers [])) := rfl
      rw [answer,receives]
      rfl
    refine ⟨_,run_snoc path _ again trivial,?_⟩
    simp [told,Tally.note,List.replicate_succ']

-- Two connections, whose peers have one block and two blocks more than the node.
def first : ConnectedPeer := ⟨.v4 0xcb007105 40000,.v4 0xcb007105 30303,1,0,1⟩
def second : ConnectedPeer := ⟨.v4 0xcb007106 40000,.v4 0xcb007106 30303,2,0,1⟩
def twoPeers : P2pManager :=
  ⟨.v4 0x7f000001 30303,((∅ : PeerTable).insert first.connectionAddr first).insert second.connectionAddr second,16⟩
def bothInOrder : List (SocketAddr × UInt64) :=
  [(first.address,first.bestHeight),(second.address,second.bestHeight)]

theorem both_possible : P2pManager.SyncOrder twoPeers.peers [first,second] bothInOrder :=
  ⟨by decide +kernel,by decide +kernel⟩

theorem fresh_height : (Node.inMemory reference).blockchain.currentHeight = 0 := by decide +kernel

theorem bad_peer_stops_sync : (∃ run : SyncRun reference, ¬ run.Asks) ∧
    ¬ ∃ bound, ∀ run : SyncRun reference, run.Consumes bound := by
  have higher : (Node.inMemory reference).blockchain.currentHeight < first.bestHeight := by
    rw [fresh_height]
    decide
  constructor
  · let willing : SocketAddr → Prop := fun addr => addr = second.address
    obtain ⟨calls,path,_,others⟩ :=
      greeted_run reference willing twoPeers first.address [(second.address,second.bestHeight)] higher
    have unwilling : ¬ willing first.address := by decide
    have closed := run_snoc path (.got (.error .peerDisconnected) []) rfl unwilling
    refine ⟨⟨twoPeers,_,_,bothInOrder,both_possible,willing,_,_,closed⟩,?_⟩
    intro asks
    have stored : twoPeers.peers.lookup second.connectionAddr = some second := Finmap.lookup_insert _
    have unseen : tally second.address (calls ++ [(.got (.error .peerDisconnected) [],.silent)]) = ⟨[],[],[]⟩ := by
      rw [tally_snoc,others _ (by decide)]
      rfl
    refine asks _ [] _ (List.append_nil _).symm closed _ rfl _ second stored rfl ?_ (by rw [unseen])
    rw [unseen]
    have below : (Node.inMemory reference).blockchain.currentHeight < second.bestHeight := by
      rw [fresh_height]
      decide
    exact below
  · rintro ⟨bound,all⟩
    have count : (1 : UInt32) =
        Sync.requestCount first.bestHeight (Node.inMemory reference).blockchain.currentHeight := by
      rw [fresh_height]
      decide
    obtain ⟨calls,path,told⟩ :=
      chatty_run reference (fun _ => True) twoPeers [(second.address,second.bestHeight)] higher count (by decide)
        trivial (bound 1 + 1)
    have bounded := all ⟨twoPeers,_,_,bothInOrder,both_possible,_,_,_,path⟩ (first.address,first.bestHeight)
      List.mem_cons_self 1
    simp only [SyncRun.tally,told,List.length_replicate] at bounded
    have short := bounded (List.mem_singleton_self _)
    omega

end SyncPeers

end BlindEye