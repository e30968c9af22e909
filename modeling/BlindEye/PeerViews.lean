import BlindEye.AddrText
import BlindEye.Library.Runs
import BlindEye.Peers

namespace BlindEye

-- What the node shows of a peer.
structure Peer where
  id : String
  bestHeight : UInt64
  address : String
  deriving DecidableEq

namespace P2pManager

def dedupe (deduped : HashMap String Peer) (peer : ConnectedPeer) : HashMap String Peer :=
  let key := peer.address.toString
  match deduped.lookup key with
  | some existing => deduped.insert key { existing with bestHeight := max existing.bestHeight peer.bestHeight }
  | none => deduped.insert key ⟨key,peer.bestHeight,key⟩

def dedupedPeers (values : List ConnectedPeer) : HashMap String Peer := values.foldl dedupe ∅

def sortByAddress (peers : List Peer) : List Peer :=
  peers.insertionSort fun left right => left.address ≤ right.address

-- The orders in which the two hash maps are walked.
structure Orders where
  values : List ConnectedPeer
  intoValues : List Peer

def Orders.Possible (orders : Orders) (peers : PeerTable) : Prop :=
  FiniteMap.Yields peers orders.values ∧ FiniteMap.Yields (dedupedPeers orders.values) orders.intoValues

instance {orders : Orders} {peers : PeerTable} : Decidable (orders.Possible peers) :=
  inferInstanceAs (Decidable (_ ∧ _))

-- What becomes the list of the node. Nothing for orders that the maps do not have.
def syncNodePeerManager (peers : PeerTable) (orders : Orders) : Option (List Peer) :=
  if orders.Possible peers then some (sortByAddress orders.intoValues) else none

end P2pManager

-- The calls that change the table of peers. The sweep is the one of `start`.
inductive PeerCall where
  | upsertPeer (connectionAddr advertisedAddr : SocketAddr) (bestHeight : UInt64) (version : UInt32) (now : SystemTime)
  | removePeer (connectionAddr : SocketAddr)
  | notePeerActivity (connectionAddr : SocketAddr) (bestHeight : Option UInt64) (now : SystemTime)
  | sweep (now : SystemTime)

namespace PeerCall

def run (manager : P2pManager) : PeerCall → P2pManager
  | .upsertPeer connectionAddr advertisedAddr bestHeight version now =>
    manager.upsertPeer connectionAddr advertisedAddr bestHeight version now
  | .removePeer connectionAddr => manager.removePeer connectionAddr
  | .notePeerActivity connectionAddr bestHeight now => manager.notePeerActivity connectionAddr bestHeight now
  | .sweep now => manager.sweep now

-- `note_peer_activity` synchronises for a height and a peer that is there.
def shouldSync (manager : P2pManager) : PeerCall → Bool
  | .notePeerActivity connectionAddr bestHeight _ =>
    (manager.peers.lookup connectionAddr).isSome && bestHeight.isSome
  | _ => true

end PeerCall

-- A manager with `peer_manager.peers` of its node.
structure PeerViews where
  manager : P2pManager
  nodePeers : List Peer

namespace PeerViews

def start (listenAddr : SocketAddr) (maxPeers : Nat) : PeerViews := ⟨.new listenAddr maxPeers,[]⟩

def turn (x : PeerViews) (call : PeerCall × P2pManager.Orders) : Option (PeerViews × Unit) :=
  let manager := call.1.run x.manager
  if call.1.shouldSync x.manager then
    (P2pManager.syncNodePeerManager manager.peers call.2).map fun nodePeers => (⟨manager,nodePeers⟩,())
  else some (⟨manager,x.nodePeers⟩,())

-- `connected_peers` of `get_status`.
def connectedPeers (x : PeerViews) : Nat := x.nodePeers.length

end PeerViews

namespace PeerViews
open P2pManager

variable {peers : PeerTable} {x y next : PeerViews} {values : List ConnectedPeer} {nodePeers others : List Peer}
  {text : String} {h : UInt64} {orders : Orders} {call : PeerCall} {manager : P2pManager}
  {listenAddr : SocketAddr} {maxPeers : Nat}

-- A connection advertises the address with this text and has this height.
def Advertises (peers : PeerTable) (text : String) (h : UInt64) : Prop :=
  ∃ k entry, peers.lookup k = some entry ∧ entry.address.toString = text ∧ entry.bestHeight = h

-- The largest of some heights, one of them.
structure Highest (among : UInt64 → Prop) (h : UInt64) : Prop where
  one : among h
  bound : ∀ other, among other → other ≤ h

theorem Highest.unique (left : Highest among a) (right : Highest among b) : a = b :=
  UInt64.le_antisymm (right.bound a left.one) (left.bound b right.one)

theorem Highest.transfer {among wanted : UInt64 → Prop} (same : ∀ h, among h ↔ wanted h) (top : Highest among h) :
    Highest wanted h := ⟨(same h).mp top.one,fun other holds => top.bound other ((same other).mpr holds)⟩

theorem Highest.raise (top : Highest among a) (b : UInt64) : Highest (fun h => among h ∨ h = b) (max a b) := by
  have larger : max a b = if a ≤ b then b else a := rfl
  rw [larger]
  split
  · rename_i below
    refine ⟨.inr rfl,?_⟩
    rintro other (holds | rfl)
    · exact UInt64.le_trans (top.bound other holds) below
    · exact UInt64.le_refl _
  · rename_i above
    refine ⟨.inl top.one,?_⟩
    rintro other (holds | rfl)
    · exact top.bound other holds
    · exact UInt64.le_of_lt (UInt64.not_le.mp above)

structure Agrees (peers : PeerTable) (nodePeers : List Peer) : Prop where
  sorted : nodePeers.Pairwise fun left right => left.address < right.address
  listed : ∀ text, (∃ peer ∈ nodePeers, peer.address = text) ↔ ∃ h, Advertises peers text h
  named : ∀ peer ∈ nodePeers, peer.id = peer.address
  highest : ∀ peer ∈ nodePeers, Highest (Advertises peers peer.address) peer.bestHeight

def Among (values : List ConnectedPeer) (text : String) (h : UInt64) : Prop :=
  ∃ value ∈ values, value.address.toString = text ∧ value.bestHeight = h

-- The largest height among some peers, if there are any.
def highest (values : List ConnectedPeer) : Option UInt64 :=
  values.foldl (fun held peer => some ((held.map fun height => max height peer.bestHeight).getD peer.bestHeight)) none

theorem highest_exact (values : List ConnectedPeer) : (highest values = none → values = []) ∧
    ∀ h, highest values = some h → Highest (fun h => ∃ peer ∈ values, peer.bestHeight = h) h := by
  induction values using List.reverseRecOn with
  | nil => exact ⟨fun _ => rfl,fun h none => nomatch none⟩
  | append_singleton values last ih =>
    obtain ⟨empty,top⟩ := ih
    have step : highest (values ++ [last]) =
        some (((highest values).map fun height => max height last.bestHeight).getD last.bestHeight) := by
      simp [highest]
    rw [step]
    refine ⟨nofun,?_⟩
    rintro h equal
    cases equal
    cases held : highest values with
    | none =>
      obtain rfl := empty held
      refine ⟨⟨last,List.mem_singleton_self _,rfl⟩,?_⟩
      rintro other ⟨peer,member,rfl⟩
      obtain rfl := List.mem_singleton.mp member
      exact UInt64.le_refl _
    | some h =>
      refine ((top h held).raise last.bestHeight).transfer fun h => ?_
      simp [or_and_right,exists_or,eq_comm]

-- The deduplicated map of some values.
structure Deduped (values : List ConnectedPeer) (deduped : HashMap String Peer) : Prop where
  entry : ∀ text peer, deduped.lookup text = some peer →
    peer.id = text ∧ peer.address = text ∧ Highest (Among values text) peer.bestHeight
  missing : ∀ text, deduped.lookup text = none → ∀ h, ¬ Among values text h

-- The map holds one peer for a text, with the highest of its heights.
theorem lookup_deduped (values : List ConnectedPeer) (text : String) : (dedupedPeers values).lookup text =
    (highest (values.filter fun value => value.address.toString = text)).map fun h => ⟨text,h,text⟩ := by
  have gathered : dedupedPeers values =
      values.foldl (fun deduped peer =>
        FiniteMap.modifyOr deduped peer.address.toString
          (fun existing => { existing with bestHeight := max existing.bestHeight peer.bestHeight })
          ⟨peer.address.toString,peer.bestHeight,peer.address.toString⟩) ∅ := by
    unfold dedupedPeers
    congr 1
    funext deduped peer
    simp only [dedupe,FiniteMap.modifyOr]
    cases deduped.lookup peer.address.toString with
    | none | some => rfl
  have keyed : ∀ value ∈ values.filter fun value => value.address.toString = text, value.address.toString = text :=
    fun value member => of_decide_eq_true (List.mem_filter.mp member).2
  rw [gathered,FiniteMap.lookup_gathered (fun peer : ConnectedPeer => peer.address.toString)
    (fun existing peer => ({ existing with bestHeight := max existing.bestHeight peer.bestHeight } : Peer))
    (fun peer => ⟨peer.address.toString,peer.bestHeight,peer.address.toString⟩)]
  generalize values.filter (fun value => value.address.toString = text) = same at keyed ⊢
  induction same using List.reverseRecOn with
  | nil => rfl
  | append_singleton same last ih =>
    have earlier := ih fun value member => keyed value (List.mem_append_left _ member)
    have named := keyed last (List.mem_append_right _ (List.mem_singleton_self _))
    rw [highest,List.foldl_append,List.foldl_append,earlier,← highest]
    cases highest same with
    | none | some => simp [named]

theorem dedupedPeers_deduped (values : List ConnectedPeer) : Deduped values (dedupedPeers values) := by
  have among : ∀ text h, (∃ value ∈ values.filter fun value => value.address.toString = text, value.bestHeight = h) ↔
      Among values text h := by
    intro text h
    simp [Among,and_assoc]
  constructor
  · intro text peer found
    rw [lookup_deduped] at found
    obtain ⟨h,held,rfl⟩ := Option.map_eq_some_iff.mp found
    exact ⟨rfl,rfl,((highest_exact _).2 h held).transfer (among text)⟩
  · intro text found h inside
    rw [lookup_deduped,Option.map_eq_none_iff] at found
    have empty := (highest_exact _).1 found
    obtain ⟨value,member,_⟩ := (among text h).mpr inside
    rw [empty] at member
    cases member

theorem among_yielded (order : FiniteMap.Yields peers values) : Among values text h ↔ Advertises peers text h := by
  constructor
  · intro among
    obtain ⟨value,member,shown⟩ := among
    obtain ⟨k,stored⟩ := (FiniteMap.yields_exact order).mp member
    exact ⟨k,value,stored,shown⟩
  · intro advertised
    obtain ⟨k,value,stored,shown⟩ := advertised
    exact ⟨value,(FiniteMap.yields_exact order).mpr ⟨k,stored⟩,shown⟩

theorem sortByAddress_sorted (distinct : (others.map Peer.address).Nodup) :
    (sortByAddress others).Pairwise fun left right => left.address < right.address := by
  have order : (sortByAddress others).Pairwise fun left right => left.address ≤ right.address :=
    List.pairwise_insertionSort _ others
  have apart : (sortByAddress others).Pairwise fun left right => left.address ≠ right.address :=
    List.pairwise_map.mp (((List.perm_insertionSort _ others).map Peer.address).nodup_iff.mpr distinct)
  exact (order.and apart).imp fun both => lt_of_le_of_ne both.1 both.2

-- Whatever the orders of the two maps.
theorem sync_agrees (synced : syncNodePeerManager peers orders = some nodePeers) : Agrees peers nodePeers := by
  unfold syncNodePeerManager at synced
  split at synced
  · rename_i possible
    cases synced
    obtain ⟨order,into⟩ := possible
    have deduped := dedupedPeers_deduped orders.values
    have member : ∀ peer, peer ∈ sortByAddress orders.intoValues ↔
        ∃ text, (dedupedPeers orders.values).lookup text = some peer := by
      intro peer
      rw [← FiniteMap.yields_exact into]
      exact (List.perm_insertionSort _ _).mem_iff
    have keyed : ∀ text peer, (dedupedPeers orders.values).lookup text = some peer → peer.address = text :=
      fun text peer found => (deduped.entry text peer found).2.1
    constructor
    · exact sortByAddress_sorted (FiniteMap.yields_distinct keyed into)
    · intro text
      constructor
      · intro ⟨peer,inside,placed⟩
        obtain ⟨key,found⟩ := (member peer).mp inside
        obtain ⟨_,same,top⟩ := deduped.entry key peer found
        rw [← placed,same]
        exact ⟨_,(among_yielded order).mp top.one⟩
      · intro ⟨h,advertised⟩
        cases found : (dedupedPeers orders.values).lookup text with
        | none => exact absurd ((among_yielded order).mpr advertised) (deduped.missing text found h)
        | some peer => exact ⟨peer,(member peer).mpr ⟨text,found⟩,keyed text peer found⟩
    · intro peer inside
      obtain ⟨key,found⟩ := (member peer).mp inside
      obtain ⟨named,placed,_⟩ := deduped.entry key peer found
      rw [named,placed]
    · intro peer inside
      obtain ⟨key,found⟩ := (member peer).mp inside
      obtain ⟨_,placed,top⟩ := deduped.entry key peer found
      rw [placed]
      exact top.transfer fun h => among_yielded order
  · cases synced

theorem Agrees.unique (left : Agrees peers nodePeers) (right : Agrees peers others) : nodePeers = others := by
  have inside : ∀ {left right : List Peer}, Agrees peers left → Agrees peers right → ∀ peer ∈ left, peer ∈ right := by
    intro left right one two peer member
    obtain ⟨same,there,placed⟩ := (two.listed peer.address).mpr ((one.listed peer.address).mp ⟨peer,member,rfl⟩)
    have height : same.bestHeight = peer.bestHeight :=
      (placed ▸ two.highest same there).unique (one.highest peer member)
    have id : same.id = peer.id := by rw [two.named same there,one.named peer member,placed]
    have equal : same = peer := by
      cases same
      cases peer
      simp_all
    exact equal ▸ there
  have apart : ∀ {list : List Peer}, Agrees peers list → list.Nodup := by
    intro list agrees
    refine agrees.sorted.imp ?_
    rintro a b below rfl
    exact lt_irrefl _ below
  have perm := (List.perm_ext_iff_of_nodup (apart left) (apart right)).mpr fun peer =>
    ⟨inside left right peer,inside right left peer⟩
  refine List.Perm.eq_of_pairwise ?_ left.sorted right.sorted perm
  intro a b _ _ below above
  exact absurd below (lt_asymm above)

theorem Agrees.transfer {wider : PeerTable} (same : ∀ text h, Advertises peers text h ↔ Advertises wider text h)
    (agrees : Agrees peers nodePeers) : Agrees wider nodePeers := by
  refine ⟨agrees.sorted,?_,agrees.named,fun peer member => (agrees.highest peer member).transfer (same peer.address)⟩
  intro text
  rw [agrees.listed text]
  exact exists_congr (same text)

-- A connection that is only seen again advertises what it did.
theorem seen_advertises {peer : ConnectedPeer} (stored : peers.lookup a = some peer) (now : SystemTime) :
    Advertises peers text h ↔ Advertises (peers.insert a { peer with lastSeen := now }) text h := by
  constructor
  · intro ⟨k,entry,found,shown⟩
    by_cases equal : k = a
    · subst equal
      rw [stored] at found
      cases found
      exact ⟨k,_,Finmap.lookup_insert _,shown⟩
    · exact ⟨k,entry,(Finmap.lookup_insert_of_ne _ equal).trans found,shown⟩
  · intro ⟨k,entry,found,shown⟩
    rcases FiniteMap.lookup_insert_cases found with ⟨_,rfl⟩ | ⟨_,before⟩
    · exact ⟨a,peer,stored,shown⟩
    · exact ⟨k,entry,before,shown⟩

theorem unsynced_advertises (quiet : call.shouldSync manager = false) :
    Advertises manager.peers text h ↔ Advertises (call.run manager).peers text h := by
  cases call with
  | upsertPeer | removePeer | sweep => cases quiet
  | notePeerActivity a bestHeight now =>
    simp only [PeerCall.shouldSync,Bool.and_eq_false_iff] at quiet
    cases stored : manager.peers.lookup a with
    | none => simp [PeerCall.run,notePeerActivity,stored]
    | some peer =>
      obtain rfl : bestHeight = none := by simpa [stored] using quiet
      simpa [PeerCall.run,notePeerActivity,stored] using seen_advertises stored now

theorem turn_exact : turn x (call,orders) = some (next,()) ↔ next.manager = call.run x.manager ∧
    if call.shouldSync x.manager then syncNodePeerManager (call.run x.manager).peers orders = some next.nodePeers
    else next.nodePeers = x.nodePeers := by
  obtain ⟨manager,nodePeers⟩ := next
  cases synced : call.shouldSync x.manager with
  | false => simp [turn,synced,eq_comm]
  | true => simp [turn,synced,eq_comm,and_comm]

theorem turn_agrees (agrees : Agrees x.manager.peers x.nodePeers) (ran : turn x (call,orders) = some (next,())) :
    Agrees next.manager.peers next.nodePeers := by
  obtain ⟨same,list⟩ := turn_exact.mp ran
  cases synced : call.shouldSync x.manager with
  | true =>
    rw [synced,if_pos rfl] at list
    rw [same]
    exact sync_agrees list
  | false =>
    rw [synced,if_neg Bool.false_ne_true] at list
    rw [same,list]
    exact agrees.transfer fun text h => unsynced_advertises synced

abbrev Ran (listenAddr : SocketAddr) (maxPeers : Nat) := Runs.Run turn (fun _ _ => True) (start listenAddr maxPeers)

def callsOf (calls : List ((PeerCall × Orders) × Unit)) : List PeerCall := calls.map fun call => call.1.1

theorem run_manager (path : Ran listenAddr maxPeers calls x) :
    x.manager = (callsOf calls).foldl PeerCall.run (.new listenAddr maxPeers) := by
  induction path with
  | nil => rfl
  | @step earlier x call next answer _ _ ran ih =>
    rw [(turn_exact.mp ran).1,ih]
    simp [callsOf]

theorem run_agrees (path : Ran listenAddr maxPeers calls x) : Agrees x.manager.peers x.nodePeers := by
  refine Runs.run_invariant (motive := fun x => Agrees x.manager.peers x.nodePeers) ?_ ?_ path
  · refine ⟨.nil,?_,by simp [start],by simp [start]⟩
    intro text
    simp [start,P2pManager.new,Advertises]
  · intro x call next answer agrees _ ran
    exact turn_agrees agrees ran

def texts (peers : PeerTable) : Finset String := (peers.entries.map fun entry => entry.2.address.toString).toFinset
def addresses (peers : PeerTable) : Finset SocketAddr :=
  (peers.entries.map fun entry => AddrText.unlabelled entry.2.address).toFinset

theorem texts_exact : text ∈ texts peers ↔ ∃ h, Advertises peers text h := by
  simp only [texts,Multiset.mem_toFinset,Multiset.mem_map,Sigma.exists,Advertises]
  constructor
  · intro ⟨k,entry,member,shown⟩
    exact ⟨entry.bestHeight,k,entry,Finmap.lookup_eq_some_iff.mpr member,shown,rfl⟩
  · intro ⟨_,k,entry,stored,shown,_⟩
    exact ⟨k,entry,Finmap.lookup_eq_some_iff.mp stored,shown⟩

theorem Agrees.count (agrees : Agrees peers nodePeers) : nodePeers.length = (texts peers).card := by
  have distinct : (nodePeers.map Peer.address).Nodup :=
    List.pairwise_map.mpr (agrees.sorted.imp fun below => ne_of_lt below)
  have same : (nodePeers.map Peer.address).toFinset = texts peers := by
    ext text
    rw [List.mem_toFinset,List.mem_map,texts_exact]
    exact agrees.listed text
  rw [← same,List.toFinset_card_of_nodup distinct,List.length_map]

theorem unlabelled_text (addr : SocketAddr) : (AddrText.unlabelled addr).toString = addr.toString := by
  cases addr <;> rfl

-- Addresses with different texts differ, and so do those with one text but for
-- their flow labels.
theorem texts_count (peers : PeerTable) : (texts peers).card = (addresses peers).card := by
  have image : texts peers = (addresses peers).image SocketAddr.toString := by
    ext text
    simp [texts,addresses,unlabelled_text]
  rw [image]
  apply Finset.card_image_of_injOn
  intro one member two other equal
  simp only [addresses,Finset.mem_coe,Multiset.mem_toFinset,Multiset.mem_map] at member other
  obtain ⟨first,_,rfl⟩ := member
  obtain ⟨second,_,rfl⟩ := other
  have read := AddrText.parse_toString first.2.address
  rw [← unlabelled_text,equal,unlabelled_text,AddrText.parse_toString] at read
  exact (Option.some.inj read).symm

theorem peer_views_agree (path : Ran listenAddr maxPeers calls x) : Agrees x.manager.peers x.nodePeers ∧
    (∀ others y, Ran listenAddr maxPeers others y → callsOf others = callsOf calls → y = x) ∧
    x.connectedPeers = (texts x.manager.peers).card ∧ x.connectedPeers = (addresses x.manager.peers).card := by
  have agrees := run_agrees path
  refine ⟨agrees,?_,agrees.count,agrees.count.trans (texts_count _)⟩
  intro others y run same
  have manager : y.manager = x.manager := by rw [run_manager run,run_manager path,same]
  have list := run_agrees run
  rw [manager] at list
  obtain ⟨_,_⟩ := x
  obtain ⟨_,_⟩ := y
  cases manager
  cases list.unique agrees
  rfl

-- Two connections of one peer, of which the second has seen more blocks.
def twice : List (PeerCall × Orders) :=
  let seen := fun (port : UInt16) (bestHeight : UInt64) =>
    (⟨.v4 0x7f000001 port,.v4 0x7f000001 30303,bestHeight,0,1⟩ : ConnectedPeer)
  let shown := fun (bestHeight : UInt64) => (⟨"127.0.0.1:30303",bestHeight,"127.0.0.1:30303"⟩ : Peer)
  [(.upsertPeer (.v4 0x7f000001 40000) (.v4 0x7f000001 30303) 3 1 0,⟨[seen 40000 3],[shown 3]⟩),
    (.upsertPeer (.v4 0x7f000001 40001) (.v4 0x7f000001 30303) 5 1 0,⟨[seen 40001 5,seen 40000 3],[shown 5]⟩)]

theorem peer_views_agree_twice : ∃ calls x, Ran (.v4 0x7f000001 30304) 16 calls x ∧
    Agrees x.manager.peers x.nodePeers ∧ x.connectedPeers = 1 := by
  have fed : (Runs.feed turn (start (.v4 0x7f000001 30304) 16) twice).map (fun pair => pair.1.connectedPeers) = some 1 := by
    decide +kernel
  obtain ⟨⟨x,answers⟩,ran,count⟩ := Option.map_eq_some_iff.mp fed
  have path : Ran (.v4 0x7f000001 30304) 16 _ x := (Runs.feed_run ran).1
  exact ⟨_,x,path,(peer_views_agree path).1,count⟩

end PeerViews

end BlindEye
