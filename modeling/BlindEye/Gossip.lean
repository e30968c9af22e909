import BlindEye.Node
import BlindEye.Peers

namespace BlindEye

-- Where a Block message stands on its way through `handle_message`: before
-- `add_block`, behind its Ok, with the address of its origin, and in the loop
-- over the peers that it is relayed to.
inductive RelayStage where
  | received
  | added
  | located (originAddr : Option SocketAddr)
  | sending (peerAddrs : List SocketAddr)
  deriving DecidableEq

structure Relay where
  connectionAddr : SocketAddr
  block : Block
  stage : RelayStage
  deriving DecidableEq

-- A node with its manager and the Block messages that it is working on.
structure GossipNode where
  shared : SharedNode
  manager : P2pManager
  relays : List Relay

-- `turn` is everything else that reaches the node: the miner, the RPC server,
-- synchronization and transactions. Peers come and go at any time.
inductive GossipEvent where
  | received (connectionAddr : SocketAddr) (block : Block) (now : SystemTime)
  | addBlock (relay : Relay) (disk : Node.Disk)
  | locate (relay : Relay)
  | choose (relay : Relay) (peerAddrs : List SocketAddr)
  | broadcast (relay : Relay) (delivered : Bool)
  | turn (t : Turn) (disk : Node.Disk)
  | peersChanged (peers : PeerTable)

inductive GossipReply where
  | done
  | answered (answer : Answer)
  | relaying (known : Finset SocketAddr)
  | sent (peerAddr : SocketAddr)

-- A lock section with what its caller does behind it: an accepted transaction or
-- block, and a reset, are saved.
def SharedNode.turnOn (c : Crates) (disk : Node.Disk) (x : SharedNode) (t : Turn) : Option (SharedNode × Answer) :=
  (x.turn c t).map fun (next,answer) =>
    match t with
    | .quote _ | .resetBlockchain => (next,answer)
    | .enter _ _ _ | .submitBlock _ | .resetMempool => (next,answer.bind fun _ => Node.saveState disk)

namespace GossipNode

def advance (x : GossipNode) (relay : Relay) (stage : RelayStage) : GossipNode :=
  { x with relays := { relay with stage } :: x.relays.erase relay }

-- One section of one task. A message may arrive at any time over any
-- connection, and more than once.
def turn (c : Crates) (x : GossipNode) : GossipEvent → Option (GossipNode × GossipReply)
  | .received connectionAddr block now =>
    let manager := x.manager.notePeerActivity connectionAddr (P2pManager.messageHeight (.block block)) now
    some ({ x with manager, relays := ⟨connectionAddr,block,.received⟩ :: x.relays },.done)
  | .addBlock relay disk =>
    if relay ∈ x.relays ∧ relay.stage = .received then
      (x.shared.turnOn c disk (.submitBlock relay.block)).map fun (shared,answer) =>
        match answer with
        | .error text => ({ x with shared, relays := x.relays.erase relay },.answered (.error text))
        | .ok () => (advance { x with shared } relay .added,.answered (.ok ()))
    else none
  | .locate relay =>
    if relay ∈ x.relays ∧ relay.stage = .added then
      some (x.advance relay (.located (x.manager.advertisedAddrForConnection relay.connectionAddr)),.done)
    else none
  -- `peerAddrs` is the order in which the hash set yields them.
  | .choose relay peerAddrs =>
    match relay.stage with
    | .located originAddr =>
      if relay ∈ x.relays ∧ peerAddrs.Nodup ∧ peerAddrs.toFinset = x.manager.connectedPeerAddresses originAddr then
        some (x.advance relay (.sending peerAddrs),.relaying (x.manager.connectedPeerAddresses none))
      else none
    | _ => none
  -- `broadcast_message`; the loop goes on if it fails.
  | .broadcast relay _ =>
    match relay.stage with
    | .sending (peerAddr :: others) =>
      if relay ∈ x.relays then some (x.advance relay (.sending others),.sent peerAddr) else none
    | _ => none
  | .turn t disk => (x.shared.turnOn c disk t).map fun (shared,answer) => ({ x with shared },.answered answer)
  | .peersChanged peers => some ({ x with manager := { x.manager with peers } },.done)

end GossipNode

end BlindEye
