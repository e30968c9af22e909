import BlindEye.Library.FiniteMap
import BlindEye.P2p
import BlindEye.SocketAddr

namespace BlindEye

-- Nanoseconds since the epoch, before it negative.
abbrev SystemTime := Int

-- Nothing for a time that is still to come.
def elapsed (now time : SystemTime) : Option Nat := if time ≤ now then some (now - time).toNat else none

def fromSecs (seconds : Nat) : Nat := seconds * 10^9

structure ConnectedPeer where
  connectionAddr : SocketAddr
  address : SocketAddr
  bestHeight : UInt64
  lastSeen : SystemTime
  version : UInt32
  deriving DecidableEq

abbrev PeerTable := HashMap SocketAddr ConnectedPeer

-- The manager without its node.
structure P2pManager where
  listenAddr : SocketAddr
  peers : PeerTable
  maxPeers : Nat

namespace P2pManager

def new (listenAddr : SocketAddr) (maxPeers : Nat) : P2pManager := ⟨listenAddr,∅,maxPeers⟩

-- `timestamp` is the reading of the system clock in seconds.
def localHandshake (manager : P2pManager) (bestHeight timestamp : UInt64) : PeerMessage :=
  .handshake 1 bestHeight timestamp manager.listenAddr.toString

def canonicalizeAdvertisedAddr (peerAddr : SocketAddr) (listenAddr : String) : SocketAddr :=
  match SocketAddr.parse listenAddr with
  | some advertisedAddr =>
    if advertisedAddr.ip.isUnspecified then advertisedAddr.setIp peerAddr.ip else advertisedAddr
  | none => peerAddr

def peerCount (manager : P2pManager) : Nat := manager.peers.keys.card

def upsertPeer (manager : P2pManager) (connectionAddr advertisedAddr : SocketAddr) (bestHeight : UInt64)
    (version : UInt32) (now : SystemTime) : P2pManager :=
  { manager with
    peers := manager.peers.insert connectionAddr ⟨connectionAddr,advertisedAddr,bestHeight,now,version⟩ }

def removePeer (manager : P2pManager) (connectionAddr : SocketAddr) : P2pManager :=
  { manager with peers := manager.peers.erase connectionAddr }

def notePeerActivity (manager : P2pManager) (connectionAddr : SocketAddr) (bestHeight : Option UInt64)
    (now : SystemTime) : P2pManager :=
  match manager.peers.lookup connectionAddr with
  | none => manager
  | some peer =>
    let bestHeight := (bestHeight.map (max peer.bestHeight)).getD peer.bestHeight
    { manager with peers := manager.peers.insert connectionAddr { peer with lastSeen := now, bestHeight } }

-- The time-out sweep of `start`.
def sweep (manager : P2pManager) (now : SystemTime) : P2pManager :=
  { manager with
    peers := FiniteMap.retain manager.peers fun _ peer =>
      decide ((elapsed now peer.lastSeen).getD (fromSecs 300) < fromSecs 300) }

def connectedPeerAddresses (manager : P2pManager) (excludedAddr : Option SocketAddr) : Finset SocketAddr :=
  ((manager.peers.entries.map fun entry => entry.2.address).filter fun peerAddr =>
    some peerAddr ≠ excludedAddr).toFinset

def advertisedAddrForConnection (manager : P2pManager) (connectionAddr : SocketAddr) : Option SocketAddr :=
  (manager.peers.lookup connectionAddr).map ConnectedPeer.address

-- The test that `start` makes for an accepted socket.
def maxPeersReached (manager : P2pManager) : Bool := decide (manager.peerCount ≥ manager.maxPeers)

-- The test of `connect_peer`.
def skipsConnection (manager : P2pManager) (addr : SocketAddr) : Bool :=
  decide (addr = manager.listenAddr) || manager.peers.any fun _ peer => decide (peer.address = addr)

-- The first message of a connection, in both directions.
def readHandshake (manager : P2pManager) (connectionAddr : SocketAddr) (now : SystemTime) :
    PeerMessage → Except P2pError P2pManager
  | .handshake version bestHeight _ listenAddr =>
    let advertisedAddr := canonicalizeAdvertisedAddr connectionAddr listenAddr
    .ok (manager.upsertPeer connectionAddr advertisedAddr bestHeight version now)
  | _ => .error .invalidMessage

def messageHeight : PeerMessage → Option UInt64
  | .block block => some block.header.height
  | .handshake _ bestHeight _ _ => some bestHeight
  | _ => none

-- The addresses of a `Peers` message for which `connect_peer` is spawned.
def announcedPeers (manager : P2pManager) : PeerMessage → List SocketAddr
  | .peers addresses => (addresses.filterMap SocketAddr.parse).filter (· ≠ manager.listenAddr)
  | _ => []

end P2pManager

-- A manager with the tasks that have it between two of their awaits: calls of
-- `connect_peer` that have not tested the address yet, connections whose first
-- message is still to come, and connections that read messages in a loop.
structure PeerNetwork where
  manager : P2pManager
  calls : List SocketAddr
  greeting : List SocketAddr
  serving : List SocketAddr

-- What the other ends and the operator do, and the clock.
inductive PeerEvent where
  | accepted (addr : SocketAddr)
  | connectPeer (addr : SocketAddr)
  | tested (addr : SocketAddr)
  | firstMessage (connectionAddr : SocketAddr) (msg : PeerMessage) (now : SystemTime)
  | message (connectionAddr : SocketAddr) (msg : PeerMessage) (now : SystemTime)
  | refused (addr : SocketAddr)
  | failed (connectionAddr : SocketAddr)
  | disconnected (connectionAddr : SocketAddr)
  | swept (now : SystemTime)

namespace PeerNetwork

def start (listenAddr : SocketAddr) (maxPeers : Nat) : PeerNetwork := ⟨.new listenAddr maxPeers,[],[],[]⟩

-- One section of one task, with whether the task goes on. An address may have
-- several connections at a time.
def turn (x : PeerNetwork) : PeerEvent → Option (PeerNetwork × Bool)
  | .accepted addr =>
    if x.manager.maxPeersReached then some (x,false) else some ({ x with greeting := addr :: x.greeting },true)
  | .connectPeer addr => some ({ x with calls := addr :: x.calls },true)
  | .tested addr =>
    if addr ∉ x.calls then none
    else if x.manager.skipsConnection addr then some ({ x with calls := x.calls.erase addr },false)
    else some ({ x with calls := x.calls.erase addr, greeting := addr :: x.greeting },true)
  | .firstMessage connectionAddr msg now =>
    if connectionAddr ∉ x.greeting then none
    else
      let greeting := x.greeting.erase connectionAddr
      match x.manager.readHandshake connectionAddr now msg with
      | .error _ => some ({ x with greeting },false)
      | .ok manager => some ({ x with manager, greeting, serving := connectionAddr :: x.serving },true)
  | .message connectionAddr msg now =>
    if connectionAddr ∉ x.serving then none
    else
      let manager := x.manager.notePeerActivity connectionAddr (P2pManager.messageHeight msg) now
      some ({ x with manager, calls := manager.announcedPeers msg ++ x.calls },true)
  -- The connection is not made, or it ends before its first message.
  | .refused addr =>
    if addr ∉ x.greeting then none else some ({ x with greeting := x.greeting.erase addr },false)
  -- A write fails, and the task returns without `remove_peer`.
  | .failed connectionAddr =>
    if connectionAddr ∉ x.serving then none
    else some ({ x with serving := x.serving.erase connectionAddr },false)
  -- A read fails.
  | .disconnected connectionAddr =>
    if connectionAddr ∉ x.serving then none
    else
      let serving := x.serving.erase connectionAddr
      some ({ x with manager := x.manager.removePeer connectionAddr, serving },false)
  | .swept now => some ({ x with manager := x.manager.sweep now },true)

end PeerNetwork

end BlindEye
