import BlindEye.AddrText
import BlindEye.SyncPeers

namespace BlindEye
open AddrText (unlabelled)

-- Where the nodes listen, and the IPs that others see their connections come from.
structure Internet (N : Type) where
  listenAddr : N → SocketAddr
  maxPeers : N → Nat
  seenAt : N → Finset IpAddr

namespace Internet

-- Whether a connection to the address ends at the listener of the node.
def Reaches (net : Internet N) (n : N) (addr : SocketAddr) : Prop :=
  if (net.listenAddr n).ip.isUnspecified then addr.ip ∈ net.seenAt n ∧ addr.port = (net.listenAddr n).port
  else unlabelled addr = unlabelled (net.listenAddr n)

instance {net : Internet N} : Decidable (net.Reaches n addr) :=
  inferInstanceAs (Decidable (if (net.listenAddr n).ip.isUnspecified then _ ∧ _ else _ = _))

-- The addresses under which others store a node: its listen address as a text has
-- it, and an IP that they see in the place of an unspecified one.
def KnownAs (net : Internet N) (n : N) (addr : SocketAddr) : Prop :=
  if (net.listenAddr n).ip.isUnspecified then ∃ ip ∈ net.seenAt n, addr = (unlabelled (net.listenAddr n)).setIp ip
  else addr = unlabelled (net.listenAddr n)

end Internet

-- What `broadcast_message` is called with.
inductive Relayed where
  | block (block : Block)
  | transaction (transaction : Transaction)
  deriving DecidableEq

def Relayed.message : Relayed → PeerMessage
  | .block added => .block added
  | .transaction submitted => .transaction submitted

-- What a connection is made for: the loop of `handle_message`, a message of
-- `broadcast_message`, or the blocks that `synchronize_blocks` asks for.
inductive Errand where
  | peer
  | broadcast (relayed : Relayed)
  | blocks (bestHeight localHeight : UInt64)
  deriving DecidableEq

namespace Errand

-- An import raises the local height of a synchronization between two of its peers.
def current (localHeight : UInt64) : Errand → Option Errand
  | .blocks bestHeight _ => if bestHeight > localHeight then some (.blocks bestHeight localHeight) else none
  | errand => some errand

-- What is written behind the handshake of the other end, and whether more is read.
def greeted : Errand → PeerMessage → List PeerMessage × Bool
  | .broadcast relayed,.handshake _ _ _ _ => ([relayed.message],false)
  | .blocks bestHeight localHeight,.handshake _ _ _ _ =>
    ([.getHeaders (localHeight + 1) (Sync.requestCount bestHeight localHeight)],true)
  | _,_ => ([],false)

-- A message in the receive loop. The loop that has all its blocks ends too.
def received (values : List ConnectedPeer) : PeerMessage → List PeerMessage × Bool
  | .block _ => ([],true)
  | .getPeers => ([.peers (values.map fun peer => peer.address.toString)],true)
  | .ping nonce => ([.pong nonce],false)
  | .peers _ | .pong _ => ([],true)
  | _ => ([],false)

end Errand

-- A connection. `source` is where the acceptor sees it come from.
structure Link (N : Type) where
  dialler : N
  acceptor : N
  dialled : SocketAddr
  source : SocketAddr
  errand : Errand
  deriving DecidableEq

-- One end of a connection, with the task that reads there.
structure LinkEnd (N : Type) where
  link : Link N
  direction : Direction
  deriving DecidableEq

namespace LinkEnd

def owner (reader : LinkEnd N) : N :=
  match reader.direction with
  | .inbound => reader.link.acceptor
  | .outbound => reader.link.dialler

def connectionAddr (reader : LinkEnd N) : SocketAddr :=
  match reader.direction with
  | .inbound => reader.link.source
  | .outbound => reader.link.dialled

def other (reader : LinkEnd N) : LinkEnd N :=
  match reader.direction with
  | .inbound => ⟨reader.link,.outbound⟩
  | .outbound => ⟨reader.link,.inbound⟩

-- Whether the task is `handle_peer` or `handle_peer_connection`.
def handled (reader : LinkEnd N) : Bool := decide (reader.direction = .inbound ∨ reader.link.errand = .peer)

end LinkEnd

-- Nodes that all run the program. `errands` are the addresses that broadcasts and
-- synchronizations have taken from the tables, `connecting` the connections that
-- are being made, `arriving` those that wait for `accept`, and `packets` the
-- messages under way, each for one end. `dials` are all calls of
-- `TcpStream::connect`, of `connect_peer` as of the errands.
structure Exchange (N : Type) where
  nodes : N → PeerNetwork
  errands : List (N × SocketAddr × Errand)
  connecting : List (N × SocketAddr × Errand)
  arriving : List (Link N)
  links : List (Link N)
  greeting : List (LinkEnd N)
  serving : List (LinkEnd N)
  packets : List (LinkEnd N × PeerMessage)
  dials : List (N × SocketAddr)

inductive ExchangeEvent (N : Type) where
  | connectPeer (n : N) (addr : SocketAddr)
  | tested (n : N) (addr : SocketAddr)
  | broadcast (n : N) (originAddr : Option SocketAddr) (relayed : Relayed) (peerAddrs : List SocketAddr)
  | synchronize (n : N) (localHeight : UInt64) (values : List ConnectedPeer) (order : List (SocketAddr × UInt64))
  | dialled (n : N) (addr : SocketAddr) (errand : Errand) (localHeight : UInt64)
  | refused (n : N) (addr : SocketAddr) (errand : Errand)
  | connected (link : Link N) (moment : Moment)
  | accepted (link : Link N)
  | delivered (reader : LinkEnd N) (moment : Moment)
  | ended (reader : LinkEnd N) (readFailed : Bool)
  | swept (n : N) (now : SystemTime)

def P2pManager.handshakeAt (manager : P2pManager) (moment : Moment) : PeerMessage :=
  manager.localHandshake moment.node.blockchain.currentHeight moment.timestamp

-- What a handler writes behind the handshake that it has read.
def P2pManager.greetings (manager : P2pManager) (moment : Moment) : Direction → List PeerMessage
  | .inbound => [manager.handshakeAt moment,.getPeers]
  | .outbound => [.getPeers]

namespace Exchange

def start (net : Internet N) : Exchange N :=
  ⟨fun n => .start (net.listenAddr n) (net.maxPeers n),[],[],[],[],[],[],[],[]⟩

def send (x : Exchange N) (reader : LinkEnd N) (messages : List PeerMessage) : Exchange N :=
  { x with packets := x.packets ++ messages.map fun msg => (reader,msg) }

-- What an end writes to the other, and whether it reads on.
def reply (x : Exchange N) (reader : LinkEnd N) (messages : List PeerMessage) (goes : Bool) : Exchange N :=
  send { x with serving := if goes then reader :: x.serving else x.serving } reader.other messages

variable [DecidableEq N]

-- A section of one node.
def act (x : Exchange N) (n : N) (event : PeerEvent) : Option (Exchange N × Bool) :=
  ((x.nodes n).turn event).map fun (node,goes) => ({ x with nodes := Function.update x.nodes n node },goes)

def greet (x : Exchange N) (reader : LinkEnd N) (msg : PeerMessage) (moment : Moment) : Option (Exchange N) :=
  let x := { x with greeting := x.greeting.erase reader }
  if reader.handled then
    (x.act reader.owner (.firstMessage reader.connectionAddr msg moment.now)).map fun (x,goes) =>
      if goes then x.reply reader ((x.nodes reader.owner).manager.greetings moment reader.direction) true else x
  else
    let (messages,goes) := reader.link.errand.greeted msg
    some (x.reply reader messages goes)

def serve (x : Exchange N) (reader : LinkEnd N) (msg : PeerMessage) (moment : Moment) : Option (Exchange N) :=
  let x := { x with serving := x.serving.erase reader }
  if reader.handled then
    (x.act reader.owner (.message reader.connectionAddr msg moment.now)).bind fun (x,_) =>
      if FiniteMap.Yields (x.nodes reader.owner).manager.peers moment.values then
        some (x.reply reader (P2pManager.replies moment msg) true)
      else none
  else if FiniteMap.Yields (x.nodes reader.owner).manager.peers moment.values then
    let (messages,goes) := Errand.received moment.values msg
    some (x.reply reader messages goes)
  else none

-- The messages to one end arrive in the order in which they were written.
def deliver (x : Exchange N) (reader : LinkEnd N) (packet : LinkEnd N × PeerMessage) (moment : Moment) :
    Option (Exchange N) :=
  let x := { x with packets := x.packets.erase packet }
  if reader ∈ x.greeting then x.greet reader packet.2 moment
  else if reader ∈ x.serving then x.serve reader packet.2 moment
  else none

-- The task that reads at an end gives up.
def leave (x : Exchange N) (reader : LinkEnd N) (event : PeerEvent) : Option (Exchange N) :=
  if reader.handled then (x.act reader.owner event).map fun (x,_) => x else some x

-- `order` and `peerAddrs` are the orders in which hash maps and sets are walked. The
-- app broadcasts with no `originAddr`, and a handler with that of a block or of a
-- transaction that it has accepted.
def turn (net : Internet N) (x : Exchange N) : ExchangeEvent N → Option (Exchange N × Unit)
  | .connectPeer n addr => (x.act n (.connectPeer addr)).map fun (x,_) => (x,())
  | .tested n addr =>
    (x.act n (.tested addr)).map fun (x,goes) =>
      if goes then ({ x with connecting := (n,addr,.peer) :: x.connecting, dials := (n,addr) :: x.dials },())
      else (x,())
  | .broadcast n originAddr relayed peerAddrs =>
    if peerAddrs.Nodup ∧ peerAddrs.toFinset = (x.nodes n).manager.connectedPeerAddresses originAddr then
      some ({ x with errands := peerAddrs.map (fun addr => (n,addr,.broadcast relayed)) ++ x.errands },())
    else none
  | .synchronize n localHeight values order =>
    if FiniteMap.Yields (x.nodes n).manager.peers values ∧
        FiniteMap.Lists (P2pManager.recordedHeights values) order then
      let errands := order.map fun (addr,bestHeight) => (n,addr,.blocks bestHeight localHeight)
      some ({ x with errands := errands ++ x.errands },())
    else none
  | .dialled n addr errand localHeight =>
    if (n,addr,errand) ∈ x.errands then
      (errand.current localHeight).map fun errand' =>
        ({ x with errands := x.errands.erase (n,addr,errand), connecting := (n,addr,errand') :: x.connecting,
                  dials := (n,addr) :: x.dials },())
    else none
  | .refused n addr errand =>
    if (n,addr,errand) ∈ x.connecting then
      let x := { x with connecting := x.connecting.erase (n,addr,errand) }
      if errand = .peer then (x.act n (.refused addr)).map fun (x,_) => (x,()) else some (x,())
    else none
  | .connected link moment =>
    let dial := (link.dialler,link.dialled,link.errand)
    if dial ∈ x.connecting ∧ link ∉ x.links ∧ net.Reaches link.acceptor link.dialled ∧
        link.source.ip ∈ net.seenAt link.dialler then
      let x := { x with connecting := x.connecting.erase dial, links := link :: x.links,
                        arriving := link :: x.arriving, greeting := ⟨link,.outbound⟩ :: x.greeting }
      some (x.send ⟨link,.inbound⟩ [(x.nodes link.dialler).manager.handshakeAt moment],())
    else none
  | .accepted link =>
    if link ∈ x.arriving then
      let x := { x with arriving := x.arriving.erase link }
      (x.act link.acceptor (.accepted link.source)).map fun (x,goes) =>
        if goes then ({ x with greeting := ⟨link,.inbound⟩ :: x.greeting },()) else (x,())
    else none
  | .delivered reader moment =>
    (x.packets.find? fun packet => packet.1 = reader).bind fun packet =>
      (x.deliver reader packet moment).map fun x => (x,())
  | .ended reader readFailed =>
    if reader ∈ x.greeting then
      (leave { x with greeting := x.greeting.erase reader } reader (.refused reader.connectionAddr)).map fun x => (x,())
    else if reader ∈ x.serving then
      let event := if readFailed then PeerEvent.disconnected reader.connectionAddr else .failed reader.connectionAddr
      (leave { x with serving := x.serving.erase reader } reader event).map fun x => (x,())
    else none
  | .swept n now => (x.act n (.swept now)).map fun (x,_) => (x,())

end Exchange

end BlindEye
