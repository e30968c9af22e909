import BlindEye.Library.Families
import BlindEye.Gossip
import BlindEye.SharedTurns
import BlindEye.SpendOnce

namespace BlindEye.GossipBound
open AddBlock ChainState SharedTurns

variable {c : Crates} {x next : GossipNode} {event : GossipEvent} {reply : GossipReply} {k : Digest}

-- Every way for a section to end.
inductive Moved (c : Crates) (x : GossipNode) : GossipEvent → GossipNode → GossipReply → Prop where
  | received (manager : P2pManager) : Moved c x (.received connectionAddr block now)
      { x with manager, relays := ⟨connectionAddr,block,.received⟩ :: x.relays } .done
  | refused : relay ∈ x.relays → x.shared.turnOn c disk (.submitBlock relay.block) = some (shared,.error text) →
      Moved c x (.addBlock relay disk) { x with shared, relays := x.relays.erase relay } (.answered (.error text))
  | added : relay ∈ x.relays → relay.stage = .received →
      x.shared.turnOn c disk (.submitBlock relay.block) = some (shared,.ok ()) →
      Moved c x (.addBlock relay disk) (GossipNode.advance { x with shared } relay .added) (.answered (.ok ()))
  | located (originAddr : Option SocketAddr) : relay ∈ x.relays → relay.stage = .added →
      Moved c x (.locate relay) (x.advance relay (.located originAddr)) .done
  | chosen {known : Finset SocketAddr} : relay ∈ x.relays → relay.stage = .located originAddr →
      peerAddrs.length ≤ known.card → Moved c x (.choose relay peerAddrs) (x.advance relay (.sending peerAddrs)) (.relaying known)
  | sent : relay ∈ x.relays → relay.stage = .sending (peerAddr :: others) →
      Moved c x (.broadcast relay delivered) (x.advance relay (.sending others)) (.sent peerAddr)
  | turned : x.shared.turnOn c disk t = some (shared,answer) →
      Moved c x (.turn t disk) { x with shared } (.answered answer)
  | peersChanged : Moved c x (.peersChanged peers) { x with manager := { x.manager with peers } } .done

-- The relay leaves out the origin and no one else.
theorem connected_known (manager : P2pManager) (originAddr : Option SocketAddr) :
    (manager.connectedPeerAddresses originAddr).card ≤ (manager.connectedPeerAddresses none).card := by
  apply Finset.card_le_card
  intro addr member
  have present := Multiset.mem_toFinset.mp member
  apply Multiset.mem_toFinset.mpr
  exact Multiset.mem_filter.mpr ⟨Multiset.mem_of_mem_filter present,by simp⟩

theorem turn_moved (ran : x.turn c event = some (next,reply)) : Moved c x event next reply := by
  cases event with
  | received => cases ran; exact .received _
  | addBlock relay disk =>
    simp only [GossipNode.turn] at ran
    split at ran
    · rename_i held
      obtain ⟨⟨shared,answer⟩,submitted,equal⟩ := Option.map_eq_some_iff.mp ran
      cases answer with
      | error text => cases equal; exact .refused held.1 submitted
      | ok => cases equal; exact .added held.1 held.2 submitted
    · cases ran
  | locate relay =>
    simp only [GossipNode.turn] at ran
    split at ran
    · rename_i held
      cases ran
      exact .located _ held.1 held.2
    · cases ran
  | choose relay peerAddrs =>
    simp only [GossipNode.turn] at ran
    split at ran
    · rename_i originAddr stage
      split at ran
      · rename_i held
        obtain ⟨member,distinct,order⟩ := held
        cases ran
        refine .chosen member stage ?_
        rw [← List.toFinset_card_of_nodup distinct,order]
        exact connected_known _ _
      · cases ran
    · cases ran
  | broadcast relay delivered =>
    simp only [GossipNode.turn] at ran
    split at ran
    · rename_i peerAddr others stage
      split at ran
      · rename_i member
        cases ran
        exact .sent member stage
      · cases ran
    · cases ran
  | turn t disk =>
    obtain ⟨⟨shared,answer⟩,turned,equal⟩ := Option.map_eq_some_iff.mp ran
    cases equal
    exact .turned turned
  | peersChanged => cases ran; exact .peersChanged

-- A number that counts only for blocks with the hash.
def only (c : Crates) (k : Digest) (block : Block) (n : Nat) : Nat := if block.hash c = k then n else 0

@[simp] theorem only_zero : only c k block 0 = 0 := by simp [only]
theorem only_mono (c : Crates) (k : Digest) (block : Block) (fewer : n ≤ m) : only c k block n ≤ only c k block m := by
  unfold only
  split
  · exact fewer
  · exact Nat.le_refl _
theorem only_add : only c k block (n + m) = only c k block n + only c k block m := by
  unfold only
  split
  · rfl
  · rfl

-- What the relays of blocks with the hash add up to, each by its stage.
def load (c : Crates) (k : Digest) (f : RelayStage → Nat) (x : GossipNode) : Nat :=
  (x.relays.map fun relay => only c k relay.block (f relay.stage)).sum

theorem load_erase (c : Crates) (k : Digest) (f : RelayStage → Nat) (member : relay ∈ x.relays) :
    ((x.relays.erase relay).map fun relay => only c k relay.block (f relay.stage)).sum +
      only c k relay.block (f relay.stage) = load c k f x := by
  rw [load,← List.sum_map_erase _ member,Nat.add_comm]

theorem load_advance (c : Crates) (k : Digest) (f : RelayStage → Nat) (stage : RelayStage) (member : relay ∈ x.relays) :
    load c k f (x.advance relay stage) + only c k relay.block (f relay.stage) =
      load c k f x + only c k relay.block (f stage) := by
  have erased := load_erase c k f member
  simp only [load,GossipNode.advance,List.map_cons,List.sum_cons] at erased ⊢
  omega

-- The block that the event gives to `add_block`.
def submitted : GossipEvent → Option Block
  | .addBlock relay _ => some relay.block
  | .turn (.submitBlock block) _ => some block
  | _ => none

def accepted (c : Crates) (k : Digest) : GossipEvent × GossipReply → Nat
  | (event,.answered (.ok ())) => ((submitted event).map fun block => only c k block 1).getD 0
  | _ => 0

def relayed (c : Crates) (k : Digest) : GossipEvent × GossipReply → Nat
  | (.choose relay _,_) => only c k relay.block 1
  | _ => 0

-- The distinct addresses that a node knows when it relays a block with the hash.
def knownPeers (c : Crates) (k : Digest) : GossipEvent × GossipReply → Nat
  | (.choose relay _,.relaying known) => only c k relay.block known.card
  | _ => 0

def messages (c : Crates) (k : Digest) : GossipEvent × GossipReply → Nat
  | (.broadcast relay _,_) => only c k relay.block 1
  | _ => 0

-- The chain is not reset.
def Keeps : GossipEvent → Prop
  | .turn .resetBlockchain _ => False
  | _ => True

instance : DecidablePred Keeps
  | .turn .resetBlockchain _ => isFalse id
  | .turn (.quote _) _ | .turn (.enter _ _ _) _ | .turn (.submitBlock _) _ | .turn .resetMempool _ => isTrue trivial
  | .received _ _ _ | .addBlock _ _ | .locate _ | .choose _ _ | .broadcast _ _ | .peersChanged _ => isTrue trivial

def unknown (k : Digest) (x : SharedNode) : Nat := if k ∈ x.node.blockchain.blocks then 0 else 1

theorem unknown_le : unknown k y ≤ 1 := by
  unfold unknown
  split
  · exact Nat.zero_le 1
  · exact Nat.le_refl 1

theorem turnOn_turned (ran : SharedNode.turnOn c disk y t = some (later,answer)) :
    ∃ first, Turned c y t later first ∧ (answer = .ok () → first = .ok ()) := by
  obtain ⟨⟨z,first⟩,turned,equal⟩ := Option.map_eq_some_iff.mp ran
  have turned := turn_sound turned
  cases t with
  | quote | resetBlockchain =>
    cases equal
    exact ⟨_,turned,fun ok => ok⟩
  | enter | submitBlock | resetMempool =>
    cases equal
    refine ⟨_,turned,?_⟩
    intro ok
    cases first with
    | error text => cases ok
    | ok => rfl

-- The known blocks only grow, unless the chain is reset.
theorem turned_known {y later : SharedNode} (turned : Turned c y t later answer) (keeps : t ≠ .resetBlockchain)
    (known : k ∈ y.node.blockchain.blocks) : k ∈ later.node.blockchain.blocks := by
  cases turned with
  | quoteRefused | quoted | enterRefused | entered | resetMempool => exact known
  | blockRefused step | blockTip step | blockKept step =>
    obtain ⟨block,stored⟩ := mem_blocks.mp known
    exact mem_blocks.mpr ⟨block,(step_grows step).blocks k block stored⟩
  | resetBlockchain => exact absurd rfl keeps

-- A block that is accepted was not known, and is known from then on.
theorem accepted_known {y later : SharedNode} (turned : Turned c y (.submitBlock block) later (.ok ())) :
    block.hash c ∉ y.node.blockchain.blocks ∧ block.hash c ∈ later.node.blockchain.blocks := by
  cases turned with
  | blockTip step | blockKept step =>
    exact ⟨(accepted_admitted step).fresh,mem_blocks.mpr ⟨block,accepted_stored step⟩⟩

theorem turnOn_unknown (ran : SharedNode.turnOn c disk y t = some (later,answer)) (keeps : t ≠ .resetBlockchain) :
    unknown k later ≤ unknown k y := by
  obtain ⟨first,turned,_⟩ := turnOn_turned ran
  unfold unknown
  split
  · exact Nat.zero_le _
  · rename_i missing
    rw [if_neg fun known => missing (turned_known turned keeps known)]

theorem submit_unknown (ran : SharedNode.turnOn c disk y (.submitBlock block) = some (later,.ok ())) :
    only c k block 1 + unknown k later ≤ unknown k y := by
  have grows := turnOn_unknown (k := k) ran (fun equal => by cases equal)
  obtain ⟨first,turned,ok⟩ := turnOn_turned ran
  obtain rfl := ok rfl
  obtain ⟨fresh,known⟩ := accepted_known turned
  unfold only
  split
  · rename_i same
    subst same
    simp [unknown,fresh,known]
  · omega

theorem accepted_budget (keeps : Keeps event) (moved : Moved c x event next reply) :
    accepted c k (event,reply) + unknown k next.shared ≤ unknown k x.shared := by
  cases moved with
  | received | located | chosen | sent | peersChanged => exact Nat.le_of_eq (Nat.zero_add _)
  | refused _ ran =>
    have grows := turnOn_unknown (k := k) ran (fun equal => by cases equal)
    simpa [accepted] using grows
  | added _ _ ran => exact submit_unknown ran
  | @turned disk t shared answer ran =>
    have grows := turnOn_unknown (k := k) ran (fun equal => by subst equal; exact keeps)
    cases answer with
    | error text => simpa [accepted] using grows
    | ok =>
      cases t with
      | submitBlock block => exact submit_unknown ran
      | quote | enter | resetBlockchain | resetMempool => simpa [accepted,submitted] using grows

-- The relays whose block is added and that have not chosen their targets.
def ahead : RelayStage → Nat
  | .added | .located _ => 1
  | .received | .sending _ => 0

def left : RelayStage → Nat
  | .sending peerAddrs => peerAddrs.length
  | .received | .added | .located _ => 0

theorem relayed_budget (moved : Moved c x event next reply) :
    relayed c k (event,reply) + load c k ahead next ≤ load c k ahead x + accepted c k (event,reply) := by
  cases moved with
  | received => simp [relayed,load,ahead]
  | refused member =>
    have erased := load_erase c k ahead member
    simp only [relayed,load] at erased ⊢
    omega
  | @added relay disk shared member stage =>
    have moved := load_advance c k ahead .added (x := { x with shared }) member
    simp only [relayed,accepted,submitted,stage,ahead,load,only_zero,Option.map_some,Option.getD_some] at moved ⊢
    omega
  | located origin member stage =>
    have moved := load_advance c k ahead (.located origin) member
    simp only [stage,ahead,relayed] at moved ⊢
    omega
  | @chosen relay origin peerAddrs known member stage =>
    have moved := load_advance c k ahead (.sending peerAddrs) member
    simp only [stage,ahead,relayed,only_zero] at moved ⊢
    omega
  | @sent relay peerAddr others delivered member stage =>
    have moved := load_advance c k ahead (.sending others) member
    simp only [stage,ahead,relayed] at moved ⊢
    omega
  | turned | peersChanged => exact (Nat.zero_add _).trans_le (Nat.le_add_right _ _)

theorem messages_budget (moved : Moved c x event next reply) :
    messages c k (event,reply) + load c k left next ≤ load c k left x + knownPeers c k (event,reply) := by
  cases moved with
  | received => simp [messages,load,left]
  | refused member =>
    have erased := load_erase c k left member
    simp only [messages,load] at erased ⊢
    omega
  | @added relay disk shared member stage =>
    have moved := load_advance c k left .added (x := { x with shared }) member
    simp only [messages,stage,left,load,only_zero] at moved ⊢
    omega
  | located origin member stage =>
    have moved := load_advance c k left (.located origin) member
    simp only [stage,left,messages] at moved ⊢
    omega
  | @chosen relay origin peerAddrs known member stage few =>
    have moved := load_advance c k left (.sending peerAddrs) member
    have bound := only_mono c k relay.block few
    simp only [stage,left,messages,knownPeers,only_zero] at moved ⊢
    omega
  | @sent relay peerAddr others delivered member stage =>
    have moved := load_advance c k left (.sending others) member
    simp only [stage,left,messages,List.length_cons,only_add] at moved ⊢
    omega
  | turned | peersChanged => exact (Nat.zero_add _).trans_le (Nat.le_add_right _ _)

-- Nodes with any chain and any peers that have not received a block yet.
def quiet (nodes : ι → SharedNode) (managers : ι → P2pManager) (i : ι) : GossipNode := ⟨nodes i,managers i,[]⟩

theorem gossip_bounded [Fintype ι] [DecidableEq ι] {nodes : ι → SharedNode} {managers : ι → P2pManager}
    (path : Runs.Run (Families.turn (GossipNode.turn c)) (fun _ call => Keeps call.2) (quiet nodes managers) calls net)
    (k : Digest) :
    (∀ i, Runs.total (accepted c k) (Families.own i calls) ≤ 1) ∧
    (∀ i, Runs.total (relayed c k) (Families.own i calls) ≤ 1) ∧
    Runs.total (fun call => messages c k (call.1.2,call.2)) calls ≤
      ∑ i, Runs.total (knownPeers c k) (Families.own i calls) := by
  have each : ∀ i, Runs.Run (GossipNode.turn c) (fun _ event => Keeps event) (quiet nodes managers i)
      (Families.own i calls) (net i) := Families.own_run path
  have once : ∀ i, Runs.total (accepted c k) (Families.own i calls) ≤ 1 := by
    intro i
    have bound := Runs.run_spends (fun x => unknown k x.shared)
      (fun keeps ran => accepted_budget keeps (turn_moved ran)) (each i)
    exact (Nat.le_add_right _ _).trans (bound.trans unknown_le)
  refine ⟨once,?_,?_⟩
  · intro i
    have bound := Runs.run_budget (load c k ahead) (fun _ ran => relayed_budget (turn_moved ran)) (each i)
    have quiet : load c k ahead (quiet nodes managers i) = 0 := rfl
    have once := once i
    omega
  · rw [Families.total_own]
    apply Finset.sum_le_sum
    intro i _
    have bound := Runs.run_budget (load c k left) (fun _ ran => messages_budget (turn_moved ran)) (each i)
    have quiet : load c k left (quiet nodes managers i) = 0 := rfl
    omega

def listener (port : UInt16) : SocketAddr := .v4 0x7f000001 port
def neighbours (ports : List UInt16) : PeerTable :=
  FiniteMap.insertAll ∅ (ports.map fun port => (listener port,⟨listener port,listener port,0,0,1⟩))
def ring (first : Bool) : P2pManager :=
  if first then ⟨listener 1,neighbours [2,3],16⟩ else ⟨listener 2,neighbours [1,3],16⟩
def freeDisk : Node.Disk := ⟨none,.ok (),.ok ()⟩

-- The block reaches the first node from the second, comes back, and is mined again
-- by the second.
def ringEvents : List (Bool × GossipEvent) :=
  let relay := Relay.mk (listener 2) earnBlock
  [(true,.received (listener 2) earnBlock 0),(true,.addBlock (relay .received) freeDisk),
    (true,.locate (relay .added)),(true,.choose (relay (.located (some (listener 2)))) [listener 3]),
    (true,.received (listener 2) earnBlock 1),(true,.addBlock (relay .received) freeDisk),
    (true,.broadcast (relay (.sending [listener 3])) true),(false,.turn (.submitBlock earnBlock) freeDisk)]

def earnHash : Digest := earnBlock.hash reference

theorem gossip_bounded_ring : ∃ calls net, Runs.Run (Families.turn (GossipNode.turn reference)) (fun _ call => Keeps call.2)
      (quiet (fun _ => .inMemory reference) ring) calls net ∧
    Runs.total (fun call => messages reference earnHash (call.1.2,call.2)) calls = 1 ∧
    (∀ i, Runs.total (accepted reference earnHash) (Families.own i calls) ≤ 1) ∧
    (∀ i, Runs.total (relayed reference earnHash) (Families.own i calls) ≤ 1) ∧
    1 ≤ ∑ i, Runs.total (knownPeers reference earnHash) (Families.own i calls) := by
  have fed : (Runs.feed (fun net call => if Keeps call.2 then Families.turn (GossipNode.turn reference) net call else none)
      (quiet (fun _ => .inMemory reference) ring) ringEvents).map (fun pair =>
        Runs.total (fun call => messages reference earnHash (call.1.2,call.2)) (ringEvents.zip pair.2)) =
      some 1 := by decide +kernel
  obtain ⟨⟨net,replies⟩,ran,sent⟩ := Option.map_eq_some_iff.mp fed
  have path := (Runs.feed_run ran).1.guarded
  obtain ⟨once,relays,bound⟩ := gossip_bounded path earnHash
  exact ⟨_,net,path,sent,once,relays,sent ▸ bound⟩

end BlindEye.GossipBound
