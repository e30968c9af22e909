import BlindEye.Exchange

namespace BlindEye.ExchangeSteps
open AddrText (unlabelled parse_unlabelled)
open Exchange (act turn start)
open P2pManager (canonicalizeAdvertisedAddr)

def Stores (manager : P2pManager) (addr : SocketAddr) : Prop :=
  ∃ k peer, manager.peers.lookup k = some peer ∧ peer.address = addr

-- The event stores a peer under the address.
def Introduces : PeerEvent → SocketAddr → Prop
  | .firstMessage connectionAddr (.handshake _ _ _ text) _,addr => addr = canonicalizeAdvertisedAddr connectionAddr text
  | _,_ => False

-- Everything that one section of a node does to the addresses that it dials.
structure Heard (node : PeerNetwork) (event : PeerEvent) (after : PeerNetwork) : Prop where
  listens : after.manager.listenAddr = node.manager.listenAddr
  calls : ∀ addr ∈ after.calls, addr ∈ node.calls ∨ event = .connectPeer addr ∨ unlabelled addr = addr
  stored : ∀ addr, Stores after.manager addr → Stores node.manager addr ∨ Introduces event addr

variable {net : Internet N} {n : N} {addr : SocketAddr} {node after : PeerNetwork} {event : PeerEvent}
  {manager : P2pManager} {errand : Errand} {link : Link N} {reader : LinkEnd N} {msg : PeerMessage} {moment : Moment}

theorem Heard.fewer (listens : after.manager.listenAddr = node.manager.listenAddr)
    (calls : ∀ addr ∈ after.calls, addr ∈ node.calls)
    (stored : ∀ addr, Stores after.manager addr → Stores node.manager addr) :
    Heard node event after :=
  ⟨listens,fun addr called => .inl (calls addr called),fun addr held => .inl (stored addr held)⟩

theorem notePeerActivity_listenAddr : (manager.notePeerActivity a h now).listenAddr = manager.listenAddr := by
  unfold P2pManager.notePeerActivity
  split
  · rfl
  · rfl

theorem notePeerActivity_stores (held : Stores (manager.notePeerActivity a h now) addr) : Stores manager addr := by
  unfold P2pManager.notePeerActivity at held
  split at held
  · exact held
  · rename_i peer found
    obtain ⟨k,other,stored,rfl⟩ := held
    rcases FiniteMap.lookup_insert_cases stored with ⟨_,rfl⟩ | ⟨_,before⟩
    · exact ⟨a,peer,found,rfl⟩
    · exact ⟨k,other,before,rfl⟩

theorem upsertPeer_stores (held : Stores (manager.upsertPeer a advertised h version now) addr) :
    Stores manager addr ∨ addr = advertised := by
  obtain ⟨k,other,stored,rfl⟩ := held
  rcases FiniteMap.lookup_insert_cases stored with ⟨_,rfl⟩ | ⟨_,before⟩
  · exact .inr rfl
  · exact .inl ⟨k,other,before,rfl⟩

theorem removePeer_stores (held : Stores (manager.removePeer a) addr) : Stores manager addr := by
  obtain ⟨k,other,stored,address⟩ := held
  exact ⟨k,other,(FiniteMap.lookup_erase_some.mp stored).2,address⟩

theorem sweep_stores (held : Stores (manager.sweep now) addr) : Stores manager addr := by
  obtain ⟨k,other,stored,address⟩ := held
  exact ⟨k,other,(FiniteMap.lookup_retain.mp stored).1,address⟩

theorem announced_unlabelled (announced : addr ∈ manager.announcedPeers msg) : unlabelled addr = addr := by
  cases msg with
  | peers addresses =>
    obtain ⟨parsed,_⟩ := List.mem_filter.mp announced
    obtain ⟨text,_,parsed⟩ := List.mem_filterMap.mp parsed
    exact parse_unlabelled parsed
  | handshake | getPeers | getBlocks | block | transaction | getHeaders | ping | pong => cases announced

theorem turn_heard (ran : node.turn event = some (after,goes)) : Heard node event after := by
  cases event with
  | accepted addr =>
    simp only [PeerNetwork.turn] at ran
    split at ran
    · cases ran; exact .fewer rfl (fun _ => id) fun _ => id
    · cases ran; exact .fewer rfl (fun _ => id) fun _ => id
  | connectPeer addr =>
    cases ran
    refine ⟨rfl,?_,fun _ => .inl⟩
    intro other called
    rcases List.mem_cons.mp called with rfl | before
    · exact .inr (.inl rfl)
    · exact .inl before
  | tested addr =>
    simp only [PeerNetwork.turn] at ran
    split at ran
    · cases ran
    · split at ran
      · cases ran; exact .fewer rfl (fun _ => List.mem_of_mem_erase) fun _ => id
      · cases ran; exact .fewer rfl (fun _ => List.mem_of_mem_erase) fun _ => id
  | firstMessage addr msg now =>
    simp only [PeerNetwork.turn] at ran
    split at ran
    · cases ran
    · cases msg with
      | handshake =>
        cases ran
        exact ⟨rfl,fun _ => .inl,fun _ held => upsertPeer_stores held⟩
      | getPeers | peers | getBlocks | block | transaction | getHeaders | ping | pong =>
        cases ran
        exact .fewer rfl (fun _ => id) fun _ => id
  | message addr msg now =>
    simp only [PeerNetwork.turn] at ran
    split at ran
    · cases ran
    · cases ran
      refine ⟨notePeerActivity_listenAddr,?_,fun _ held => .inl (notePeerActivity_stores held)⟩
      intro other called
      rcases List.mem_append.mp called with announced | before
      · exact .inr (.inr (announced_unlabelled announced))
      · exact .inl before
  | refused | failed =>
    simp only [PeerNetwork.turn] at ran
    split at ran
    · cases ran
    · cases ran; exact .fewer rfl (fun _ => id) fun _ => id
  | disconnected =>
    simp only [PeerNetwork.turn] at ran
    split at ran
    · cases ran
    · cases ran; exact .fewer rfl (fun _ => id) fun _ => removePeer_stores
  | swept => cases ran; exact .fewer rfl (fun _ => id) fun _ => sweep_stores

theorem tested_differs (ran : node.turn (.tested addr) = some (after,true)) :
    addr ∈ node.calls ∧ addr ≠ node.manager.listenAddr := by
  simp only [PeerNetwork.turn] at ran
  split at ran
  · cases ran
  · rename_i called
    split at ran
    · cases ran
    · rename_i differs
      refine ⟨not_not.mp called,?_⟩
      rintro rfl
      exact differs (by simp [P2pManager.skipsConnection])

theorem connected_stores (member : addr ∈ manager.connectedPeerAddresses originAddr) : Stores manager addr := by
  have inside := (Multiset.mem_filter.mp (Multiset.mem_toFinset.mp member)).1
  obtain ⟨⟨k,peer⟩,held,address⟩ := Multiset.mem_map.mp inside
  exact ⟨k,peer,Finmap.lookup_eq_some_iff.mpr held,address⟩

variable {x next : Exchange N} {change : ExchangeEvent N}

-- Where the calls of `connect_peer` and the first messages of a handler come from.
def Caused (x : Exchange N) (change : ExchangeEvent N) (n : N) : PeerEvent → Prop
  | .connectPeer addr => change = .connectPeer n addr
  | .firstMessage connectionAddr msg _ =>
    ∃ reader ∈ x.greeting, reader.owner = n ∧ reader.connectionAddr = connectionAddr ∧ (reader,msg) ∈ x.packets
  | _ => True

def Moved (x : Exchange N) (change : ExchangeEvent N) (next : Exchange N) : Prop :=
  ∀ n, next.nodes n = x.nodes n ∨
    ∃ event goes, Caused x change n event ∧ (x.nodes n).turn event = some (next.nodes n,goes)

-- A connection that has just been made.
structure Made (net : Internet N) (x : Exchange N) (link : Link N) : Prop where
  dialled : (link.dialler,link.dialled,link.errand) ∈ x.connecting
  reaches : net.Reaches link.acceptor link.dialled
  seen : link.source.ip ∈ net.seenAt link.dialler

-- Everything that one turn adds.
structure Adds (net : Internet N) (x : Exchange N) (change : ExchangeEvent N) (next : Exchange N) : Prop where
  nodes : Moved x change next
  errands : ∀ n addr errand, (n,addr,errand) ∈ next.errands → (n,addr,errand) ∈ x.errands ∨ Stores (x.nodes n).manager addr
  connecting : ∀ n addr errand, (n,addr,errand) ∈ next.connecting → (n,addr,errand) ∈ x.connecting ∨ (n,addr) ∈ next.dials
  arriving : ∀ link ∈ next.arriving, link ∈ x.arriving ∨ Made net x link
  greeting : ∀ reader ∈ next.greeting, reader ∈ x.greeting ∨ reader.link ∈ x.arriving ∨ Made net x reader.link
  packets : ∀ reader v h t text, (reader,.handshake v h t text) ∈ next.packets →
    (reader,.handshake v h t text) ∈ x.packets ∨ text = (x.nodes reader.other.owner).manager.listenAddr.toString
  dials : ∀ n addr, (n,addr) ∈ next.dials → (n,addr) ∈ x.dials ∨
    (∃ after, (x.nodes n).turn (.tested addr) = some (after,true)) ∨ ∃ errand, (n,addr,errand) ∈ x.errands

theorem Moved.still (same : next.nodes = x.nodes) : Moved x change next := fun _ => .inl (by rw [same])

-- A turn that dials nothing, connects nothing and writes no handshake.
theorem Adds.quiet (nodes : Moved x change next) (errands : next.errands = x.errands)
    (connecting : next.connecting ⊆ x.connecting) (arriving : next.arriving ⊆ x.arriving)
    (greeting : next.greeting ⊆ x.greeting)
    (packets : ∀ reader v h t text, (reader,.handshake v h t text) ∈ next.packets →
      (reader,PeerMessage.handshake v h t text) ∈ x.packets) (dials : next.dials = x.dials) : Adds net x change next where
  nodes := nodes
  errands := fun _ _ _ member => .inl (errands ▸ member)
  connecting := fun _ _ _ member => .inl (connecting member)
  arriving := fun _ member => .inl (arriving member)
  greeting := fun _ member => .inl (greeting member)
  packets := fun reader v h t text member => .inl (packets reader v h t text member)
  dials := fun _ _ member => .inl (dials ▸ member)

-- Handshakes are written by the handlers alone, and name where their node listens.
theorem greetings_handshake (member : .handshake v h t text ∈ manager.greetings moment direction) :
    text = manager.listenAddr.toString := by
  cases direction with
  | inbound =>
    rcases List.mem_pair.mp member with same | same
    · exact (PeerMessage.handshake.inj same).2.2.2
    · cases same
  | outbound => cases List.mem_singleton.mp member

theorem greeted_handshake : .handshake v h t text ∉ (errand.greeted msg).1 := by
  intro member
  cases errand with
  | peer => cases msg <;> cases member
  | broadcast relayed =>
    cases msg with
    | handshake =>
      cases relayed with
      | block | transaction => cases List.mem_singleton.mp member
    | getPeers | peers | getBlocks | block | transaction | getHeaders | ping | pong => cases member
  | blocks =>
    cases msg with
    | handshake => cases List.mem_singleton.mp member
    | getPeers | peers | getBlocks | block | transaction | getHeaders | ping | pong => cases member

theorem received_handshake : .handshake v h t text ∉ (Errand.received values msg).1 := by
  intro member
  cases msg with
  | getPeers | ping => cases List.mem_singleton.mp member
  | handshake | peers | getBlocks | block | transaction | getHeaders | pong => cases member

theorem replies_handshake : .handshake v h t text ∉ P2pManager.replies moment msg := by
  intro member
  cases msg with
  | getPeers | ping => cases List.mem_singleton.mp member
  | getHeaders =>
    rcases List.mem_append.mp member with blocks | last
    · obtain ⟨_,_,same⟩ := List.mem_map.mp blocks
      cases same
    · cases List.mem_singleton.mp last
  | handshake | peers | getBlocks | block | transaction | pong => cases member

theorem other_other (reader : LinkEnd N) : reader.other.other = reader := by
  obtain ⟨link,direction⟩ := reader
  cases direction with
  | inbound | outbound => rfl

-- A reply without a handshake.
theorem reply_packets {messages : List PeerMessage} (silent : ∀ v h t text, .handshake v h t text ∉ messages)
    (member : (other,.handshake v h t text) ∈ (x.reply reader messages goes).packets) :
    (other,.handshake v h t text) ∈ x.packets := by
  rcases List.mem_append.mp member with before | added
  · exact before
  · obtain ⟨msg,inside,equal⟩ := List.mem_map.mp added
    cases equal
    exact absurd inside (silent _ _ _ _)

-- A call of `TcpStream::connect`.
theorem dial_adds (nodes : Moved x change next) (errands : next.errands ⊆ x.errands)
    (connecting : next.connecting = (n,addr,errand) :: x.connecting) (arriving : next.arriving = x.arriving)
    (greeting : next.greeting = x.greeting) (packets : next.packets = x.packets) (dials : next.dials = (n,addr) :: x.dials)
    (cause : (∃ after, (x.nodes n).turn (.tested addr) = some (after,true)) ∨ ∃ errand, (n,addr,errand) ∈ x.errands) :
    Adds net x change next := by
  refine ⟨nodes,fun _ _ _ member => .inl (errands member),?_,fun _ member => .inl (arriving ▸ member),
    fun _ member => .inl (greeting ▸ member),fun _ _ _ _ _ member => .inl (packets ▸ member),?_⟩
  · intro m other errand member
    rw [connecting] at member
    rcases List.mem_cons.mp member with here | before
    · cases here
      rw [dials]
      exact .inr (.head _)
    · exact .inl before
  · intro m other member
    rw [dials] at member
    rcases List.mem_cons.mp member with here | before
    · cases here
      exact .inr cause
    · exact .inl before

-- What broadcasts and synchronizations take from the table of their node.
theorem errands_adds {taken : List (N × SocketAddr × Errand)}
    (stored : ∀ m addr errand, (m,addr,errand) ∈ taken → Stores (x.nodes m).manager addr) :
    Adds net x change { x with errands := taken ++ x.errands } := by
  refine ⟨.still rfl,?_,fun _ _ _ => .inl,fun _ => .inl,fun _ => .inl,fun _ _ _ _ _ => .inl,fun _ _ => .inl⟩
  intro m addr errand member
  rcases List.mem_append.mp member with here | before
  · exact .inr (stored m addr errand here)
  · exact .inl before

variable [DecidableEq N]

theorem act_exact : x.act n event = some (next,goes) ↔
    ∃ after, (x.nodes n).turn event = some (after,goes) ∧
      next = { x with nodes := Function.update x.nodes n after } := by
  simp only [act,Option.map_eq_some_iff,Prod.exists,Prod.mk.injEq]
  constructor
  · intro ⟨after,_,ran,equal,same⟩
    subst same
    exact ⟨after,ran,equal.symm⟩
  · intro ⟨after,ran,equal⟩
    exact ⟨after,goes,ran,equal.symm,rfl⟩

theorem Moved.acted (moved : (x.nodes n).turn event = some (after,goes)) (caused : Caused x change n event)
    (nodes : next.nodes = Function.update x.nodes n after) : Moved x change next := by
  intro m
  rw [nodes]
  by_cases same : m = n
  · subst same
    rw [Function.update_self]
    exact .inr ⟨event,goes,caused,moved⟩
  · exact .inl (Function.update_of_ne same _ _)

theorem greet_adds (held : reader ∈ x.greeting) (packet : (reader,msg) ∈ x.packets)
    (ran : Exchange.greet { x with packets := x.packets.erase (reader,msg) } reader msg moment = some next) :
    Adds net x change next := by
  simp only [Exchange.greet] at ran
  split at ran
  · obtain ⟨⟨y,goes⟩,acted,equal⟩ := Option.map_eq_some_iff.mp ran
    obtain ⟨after,moved,rfl⟩ := act_exact.mp acted
    have caused : Caused x change reader.owner (.firstMessage reader.connectionAddr msg moment.now) :=
      ⟨reader,held,rfl,rfl,packet⟩
    cases goes with
    | false =>
      cases equal
      exact .quiet (.acted moved caused rfl) rfl (.refl _) (.refl _) List.erase_subset
        (fun _ _ _ _ _ member => List.mem_of_mem_erase member) rfl
    | true =>
      cases equal
      refine ⟨.acted moved caused rfl,fun _ _ _ => .inl,fun _ _ _ => .inl,fun _ => .inl,
        fun _ member => .inl (List.mem_of_mem_erase member),?_,fun _ _ => .inl⟩
      intro other v h t text member
      rcases List.mem_append.mp member with before | added
      · exact .inl (List.mem_of_mem_erase before)
      · obtain ⟨greeting,inside,equal⟩ := List.mem_map.mp added
        cases equal
        have named : text = (Function.update x.nodes reader.owner after reader.owner).manager.listenAddr.toString :=
          greetings_handshake inside
        rw [Function.update_self,(turn_heard moved).listens] at named
        rw [other_other]
        exact .inr named
  · cases ran
    exact .quiet (.still rfl) rfl (.refl _) (.refl _) List.erase_subset
      (fun _ _ _ _ _ member => List.mem_of_mem_erase (reply_packets (fun _ _ _ _ => greeted_handshake) member)) rfl

theorem serve_adds (ran : Exchange.serve { x with packets := x.packets.erase packet } reader msg moment = some next) :
    Adds net x change next := by
  simp only [Exchange.serve] at ran
  split at ran
  · obtain ⟨⟨y,goes⟩,acted,rest⟩ := Option.bind_eq_some_iff.mp ran
    obtain ⟨after,moved,rfl⟩ := act_exact.mp acted
    split at rest
    · cases rest
      exact .quiet (.acted moved trivial rfl) rfl (.refl _) (.refl _) (.refl _)
        (fun _ _ _ _ _ member => List.mem_of_mem_erase (reply_packets (fun _ _ _ _ => replies_handshake) member)) rfl
    · cases rest
  · split at ran
    · cases ran
      exact .quiet (.still rfl) rfl (.refl _) (.refl _) (.refl _)
        (fun _ _ _ _ _ member => List.mem_of_mem_erase (reply_packets (fun _ _ _ _ => received_handshake) member)) rfl
    · cases ran

theorem deliver_adds (packet : (reader,msg) ∈ x.packets) (ran : x.deliver reader (reader,msg) moment = some next) :
    Adds net x change next := by
  simp only [Exchange.deliver] at ran
  split at ran
  · rename_i held
    exact greet_adds held packet ran
  · split at ran
    · exact serve_adds ran
    · cases ran

theorem leave_adds (ran : Exchange.leave { x with greeting, serving } reader event = some next)
    (apart : ∀ n, Caused x change n event) (fewer : greeting ⊆ x.greeting) : Adds net x change next := by
  simp only [Exchange.leave] at ran
  split at ran
  · obtain ⟨⟨y,goes⟩,acted,equal⟩ := Option.map_eq_some_iff.mp ran
    obtain ⟨after,moved,rfl⟩ := act_exact.mp acted
    cases equal
    exact .quiet (.acted moved (apart _) rfl) rfl (.refl _) (.refl _) fewer (fun _ _ _ _ _ => id) rfl
  · cases ran
    exact .quiet (.still rfl) rfl (.refl _) (.refl _) fewer (fun _ _ _ _ _ => id) rfl

theorem connected_adds (made : Made net x link) (moment : Moment) :
    Adds net x change (({ x with connecting := x.connecting.erase (link.dialler,link.dialled,link.errand),
                                 links := link :: x.links, arriving := link :: x.arriving,
                                 greeting := ⟨link,.outbound⟩ :: x.greeting } : Exchange N).send ⟨link,.inbound⟩
      [(x.nodes link.dialler).manager.handshakeAt moment]) := by
  refine ⟨.still rfl,fun _ _ _ => .inl,fun _ _ _ member => .inl (List.mem_of_mem_erase member),?_,?_,?_,fun _ _ => .inl⟩
  · intro other member
    rcases List.mem_cons.mp member with rfl | before
    · exact .inr made
    · exact .inl before
  · intro other member
    rcases List.mem_cons.mp member with rfl | before
    · exact .inr (.inr made)
    · exact .inl before
  · intro reader v h t text member
    rcases List.mem_append.mp member with before | added
    · exact .inl before
    · cases List.mem_singleton.mp added
      exact .inr rfl

theorem turn_adds (ran : turn net x change = some (next,())) : Adds net x change next := by
  cases change with
  | connectPeer n addr =>
    simp only [turn] at ran
    obtain ⟨⟨y,goes⟩,acted,equal⟩ := Option.map_eq_some_iff.mp ran
    obtain ⟨after,moved,rfl⟩ := act_exact.mp acted
    cases equal
    exact .quiet (.acted moved rfl rfl) rfl (.refl _) (.refl _) (.refl _) (fun _ _ _ _ _ => id) rfl
  | tested n addr =>
    obtain ⟨⟨y,goes⟩,acted,equal⟩ := Option.map_eq_some_iff.mp ran
    obtain ⟨after,moved,rfl⟩ := act_exact.mp acted
    cases goes with
    | false =>
      cases equal
      exact .quiet (.acted moved trivial rfl) rfl (.refl _) (.refl _) (.refl _) (fun _ _ _ _ _ => id) rfl
    | true =>
      cases equal
      exact dial_adds (.acted moved trivial rfl) (.refl _) rfl rfl rfl rfl rfl (.inl ⟨after,moved⟩)
  | broadcast n originAddr relayed peerAddrs =>
    simp only [turn] at ran
    split at ran
    · rename_i taken
      cases ran
      refine errands_adds fun m addr errand member => ?_
      obtain ⟨other,inside,equal⟩ := List.mem_map.mp member
      cases equal
      rw [← List.mem_toFinset,taken.2] at inside
      exact connected_stores inside
    · cases ran
  | synchronize n localHeight values order =>
    simp only [turn] at ran
    split at ran
    · rename_i walked
      cases ran
      refine errands_adds fun m addr errand member => ?_
      obtain ⟨⟨other,height⟩,inside,equal⟩ := List.mem_map.mp member
      cases equal
      obtain ⟨k,peer,stored,address,_⟩ := SyncPeers.order_recorded ⟨walked.1,walked.2⟩ inside
      exact ⟨k,peer,stored,address⟩
    · cases ran
  | dialled n addr errand localHeight =>
    simp only [turn] at ran
    split at ran
    · rename_i pending
      obtain ⟨current,_,equal⟩ := Option.map_eq_some_iff.mp ran
      cases equal
      exact dial_adds (.still rfl) List.erase_subset rfl rfl rfl rfl rfl (.inr ⟨errand,pending⟩)
    · cases ran
  | refused n addr errand =>
    simp only [turn] at ran
    split at ran
    · split at ran
      · obtain ⟨⟨y,goes⟩,acted,equal⟩ := Option.map_eq_some_iff.mp ran
        obtain ⟨after,moved,rfl⟩ := act_exact.mp acted
        cases equal
        exact .quiet (.acted moved trivial rfl) rfl List.erase_subset (.refl _) (.refl _) (fun _ _ _ _ _ => id) rfl
      · cases ran
        exact .quiet (.still rfl) rfl List.erase_subset (.refl _) (.refl _) (fun _ _ _ _ _ => id) rfl
    · cases ran
  | connected link moment =>
    simp only [turn] at ran
    split at ran
    · rename_i made
      cases ran
      exact connected_adds ⟨made.1,made.2.2.1,made.2.2.2⟩ moment
    · cases ran
  | accepted link =>
    simp only [turn] at ran
    split at ran
    · rename_i arriving
      obtain ⟨⟨y,goes⟩,acted,equal⟩ := Option.map_eq_some_iff.mp ran
      obtain ⟨after,moved,rfl⟩ := act_exact.mp acted
      cases goes with
      | false =>
        cases equal
        exact .quiet (.acted moved trivial rfl) rfl (.refl _) List.erase_subset (.refl _) (fun _ _ _ _ _ => id) rfl
      | true =>
        cases equal
        refine ⟨.acted moved trivial rfl,fun _ _ _ => .inl,fun _ _ _ => .inl,
          fun _ member => .inl (List.mem_of_mem_erase member),?_,fun _ _ _ _ _ => .inl,fun _ _ => .inl⟩
        intro reader member
        rcases List.mem_cons.mp member with rfl | before
        · exact .inr (.inl arriving)
        · exact .inl before
    · cases ran
  | delivered reader moment =>
    obtain ⟨⟨owner,msg⟩,found,delivered⟩ := Option.bind_eq_some_iff.mp ran
    obtain ⟨y,ran',equal⟩ := Option.map_eq_some_iff.mp delivered
    cases equal
    have owned := List.find?_some found
    obtain rfl : owner = reader := of_decide_eq_true owned
    exact deliver_adds (List.mem_of_find?_eq_some found) ran'
  | ended reader readFailed =>
    simp only [turn] at ran
    split at ran
    · obtain ⟨y,left,equal⟩ := Option.map_eq_some_iff.mp ran
      cases equal
      exact leave_adds left (fun _ => trivial) List.erase_subset
    · split at ran
      · obtain ⟨y,left,equal⟩ := Option.map_eq_some_iff.mp ran
        cases equal
        cases readFailed with
        | true | false => exact leave_adds left (fun _ => trivial) (.refl _)
      · cases ran
  | swept n now =>
    simp only [turn] at ran
    obtain ⟨⟨y,goes⟩,acted,equal⟩ := Option.map_eq_some_iff.mp ran
    obtain ⟨after,moved,rfl⟩ := act_exact.mp acted
    cases equal
    exact .quiet (.acted moved trivial rfl) rfl (.refl _) (.refl _) (.refl _) (fun _ _ _ _ _ => id) rfl

end BlindEye.ExchangeSteps
