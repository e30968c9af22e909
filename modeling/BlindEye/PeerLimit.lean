import BlindEye.Library.Runs
import BlindEye.Peers

namespace BlindEye.PeerLimit
open PeerNetwork (turn)

variable {manager : P2pManager} {x next : PeerNetwork} {event : PeerEvent} {goes : Bool}
  {listenAddr : SocketAddr} {maxPeers : Nat} {meets : PeerNetwork → PeerEvent → Prop}

abbrev Ran (meets : PeerNetwork → PeerEvent → Prop) (listenAddr : SocketAddr) (maxPeers : Nat) :=
  Runs.Run PeerNetwork.turn meets (.start listenAddr maxPeers)

theorem notePeerActivity_maxPeers : (manager.notePeerActivity a h now).maxPeers = manager.maxPeers := by
  unfold P2pManager.notePeerActivity
  split
  · rfl
  · rfl

theorem peerCount_upsertPeer : (manager.upsertPeer a b h v now).peerCount =
    if a ∈ manager.peers then manager.peerCount else manager.peerCount + 1 := FiniteMap.card_insert

theorem peerCount_removePeer : (manager.removePeer a).peerCount ≤ manager.peerCount := FiniteMap.card_erase_le

theorem peerCount_sweep : (manager.sweep now).peerCount ≤ manager.peerCount := FiniteMap.card_retain_le

-- Only a peer that has an entry is noted.
theorem peerCount_notePeerActivity : (manager.notePeerActivity a h now).peerCount = manager.peerCount := by
  unfold P2pManager.notePeerActivity
  split
  · rfl
  · rename_i peer found
    exact FiniteMap.card_insert.trans (if_pos (Finmap.mem_iff.mpr ⟨peer,found⟩))

-- The connection for which the event enters a peer.
def registered : PeerEvent → Option SocketAddr
  | .firstMessage connectionAddr (.handshake _ _ _ _) _ => some connectionAddr
  | _ => none

-- What one section does to the number of peers.
structure Counted (x : PeerNetwork) (event : PeerEvent) (next : PeerNetwork) : Prop where
  settings : next.manager.maxPeers = x.manager.maxPeers
  other : registered event = none → next.manager.peerCount ≤ x.manager.peerCount
  entered : ∀ addr, registered event = some addr → next.manager.peerCount =
    if addr ∈ x.manager.peers then x.manager.peerCount else x.manager.peerCount + 1

theorem Counted.unregistered (other : registered event = none) (settings : next.manager.maxPeers = x.manager.maxPeers)
    (fewer : next.manager.peerCount ≤ x.manager.peerCount) : Counted x event next := by
  refine ⟨settings,fun _ => fewer,?_⟩
  intro addr entered
  rw [other] at entered
  cases entered

theorem Counted.still (other : registered event = none) (same : next.manager = x.manager) : Counted x event next := by
  refine .unregistered other ?_ ?_
  · rw [same]
  · rw [same]

theorem readHandshake_counted (ran : x.turn (.firstMessage a msg now) = some (next,goes)) :
    Counted x (.firstMessage a msg now) next := by
  simp only [turn] at ran
  split at ran
  · cases ran
  · cases msg with
    | handshake version bestHeight timestamp listenAddr =>
      cases ran
      refine ⟨rfl,(fun other => by cases other),?_⟩
      intro addr same
      cases same
      exact peerCount_upsertPeer
    | getPeers | peers | getBlocks | block | transaction | getHeaders | ping | pong =>
      cases ran
      exact .still rfl rfl

theorem turn_counted (ran : x.turn event = some (next,goes)) : Counted x event next := by
  cases event with
  | firstMessage => exact readHandshake_counted ran
  | accepted =>
    simp only [turn] at ran
    split at ran
    · cases ran; exact .still rfl rfl
    · cases ran; exact .still rfl rfl
  | connectPeer => cases ran; exact .still rfl rfl
  | tested =>
    simp only [turn] at ran
    split at ran
    · cases ran
    · split at ran
      · cases ran; exact .still rfl rfl
      · cases ran; exact .still rfl rfl
  | message =>
    simp only [turn] at ran
    split at ran
    · cases ran
    · cases ran
      exact .unregistered rfl notePeerActivity_maxPeers (Nat.le_of_eq peerCount_notePeerActivity)
  | refused | failed =>
    simp only [turn] at ran
    split at ran
    · cases ran
    · cases ran; exact .still rfl rfl
  | disconnected =>
    simp only [turn] at ran
    split at ran
    · cases ran
    · cases ran; exact .unregistered rfl rfl peerCount_removePeer
  | swept => cases ran; exact .unregistered rfl rfl peerCount_sweep

theorem run_maxPeers (path : Ran meets listenAddr maxPeers calls x) : x.manager.maxPeers = maxPeers :=
  Runs.run_invariant (motive := fun x => x.manager.maxPeers = maxPeers) rfl
    (fun same _ ran => (turn_counted ran).settings.trans same) path

-- A peer that is entered has an entry already, or finds the table below the limit.
def HasRoom (x : PeerNetwork) (event : PeerEvent) : Prop :=
  ∀ addr ∈ registered event, addr ∈ x.manager.peers ∨ x.manager.peerCount < x.manager.maxPeers

instance : Decidable (HasRoom x event) := inferInstanceAs (Decidable (∀ addr ∈ registered event, _))

theorem turn_within (within : x.manager.peerCount ≤ x.manager.maxPeers) (ran : x.turn event = some (next,goes)) :
    next.manager.peerCount ≤ next.manager.maxPeers ↔ HasRoom x event := by
  have counted := turn_counted ran
  rw [counted.settings]
  cases entered : registered event with
  | none =>
    have fewer := counted.other entered
    refine iff_of_true (fewer.trans within) ?_
    intro addr member
    rw [entered] at member
    cases member
  | some addr =>
    have count := counted.entered addr entered
    have only : HasRoom x event ↔ addr ∈ x.manager.peers ∨ x.manager.peerCount < x.manager.maxPeers := by
      simp [HasRoom,entered]
    rw [only,count]
    by_cases present : addr ∈ x.manager.peers
    · rw [if_pos present]
      exact iff_of_true within (.inl present)
    · rw [if_neg present]
      exact ⟨.inr,fun room => room.resolve_left present⟩

theorem peer_limit_exact (path : Ran (fun _ _ => True) listenAddr maxPeers calls x) :
    (∀ earlier later mid, calls = earlier ++ later → Ran (fun _ _ => True) listenAddr maxPeers earlier mid →
      mid.manager.peerCount ≤ maxPeers) ↔ Ran HasRoom listenAddr maxPeers calls x := by
  refine Runs.run_exact (motive := fun _ x => x.manager.peerCount ≤ maxPeers) (Nat.zero_le _) ?_ path
  intro calls x event next goes prior within ran
  have before := run_maxPeers prior
  have after := (turn_counted ran).settings.trans before
  have exact := turn_within (before ▸ within) ran
  rw [after] at exact
  exact exact

-- Sockets on one host, and what they say first.
def socket (port : UInt16) : SocketAddr := .v4 0x7f000001 port
def greeting (port : UInt16) : PeerEvent :=
  .firstMessage (socket port) (.handshake 1 0 0 "0.0.0.0:30303") 0
def ports : List UInt16 := (List.range 17).map fun i => UInt16.ofNat (40000 + i)

theorem peer_limit_exact_reconnected : ∃ calls x, Ran (fun _ _ => True) (socket 30303) 1 calls x ∧ x.greeting = [] ∧
    x.manager.peerCount = 1 ∧ ∀ earlier later mid, calls = earlier ++ later →
      Ran (fun _ _ => True) (socket 30303) 1 earlier mid → mid.manager.peerCount ≤ 1 := by
  have fed : (Runs.feed (fun x event => if HasRoom x event then turn x event else none) (.start (socket 30303) 1)
      [.accepted (socket 40000),greeting 40000,.accepted (socket 40001),.disconnected (socket 40000),
        .accepted (socket 40001),greeting 40001]).map (fun pair => (pair.1.greeting,pair.1.manager.peerCount)) =
      some ([],1) := by decide +kernel
  obtain ⟨⟨x,answers⟩,ran,equal⟩ := Option.map_eq_some_iff.mp fed
  simp only [Prod.mk.injEq] at equal
  obtain ⟨finished,count⟩ := equal
  have roomy := (Runs.feed_run ran).1.guarded
  have path : Ran (fun _ _ => True) (socket 30303) 1 _ x := roomy.weaken fun _ _ _ => trivial
  exact ⟨_,x,path,finished,count,(peer_limit_exact path).mpr roomy⟩

-- All sockets are accepted before the first of them has sent its handshake.
theorem crowd_enters : ∃ calls x, Ran (fun _ _ => True) (socket 30303) 16 calls x ∧ x.manager.peerCount = 17 := by
  have fed : (Runs.feed turn (.start (socket 30303) 16)
      (ports.map (fun port => .accepted (socket port)) ++ ports.map greeting)).map (fun pair =>
        pair.1.manager.peerCount) = some 17 := by decide +kernel
  obtain ⟨⟨x,answers⟩,ran,count⟩ := Option.map_eq_some_iff.mp fed
  exact ⟨_,x,(Runs.feed_run ran).1,count⟩

end BlindEye.PeerLimit
