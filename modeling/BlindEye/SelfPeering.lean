import BlindEye.ExchangeSteps

namespace BlindEye.SelfPeering
open AddrText (unlabelled unlabelled_twice parse_toString)
open Exchange (act turn start)
open P2pManager (canonicalizeAdvertisedAddr)
open ExchangeSteps

section
variable [DecidableEq N] {net : Internet N} {n m : N} {addr : SocketAddr} {after : PeerNetwork} {event : PeerEvent}
  {reader : LinkEnd N} {msg : PeerMessage} {link : Link N} {x next : Exchange N} {change : ExchangeEvent N}

-- The operator of the node names other nodes.
def NamesOthers (net : Internet N) (n : N) (_ : Exchange N) : ExchangeEvent N → Prop
  | .connectPeer m addr => m = n → ¬ net.Reaches n addr
  | _ => True

abbrev Ran (net : Internet N) (n : N) := Runs.Run (turn net) (NamesOthers net n) (start net)

-- The node listens where no other is known.
structure Separate (net : Internet N) (n : N) : Prop where
  specified : (net.listenAddr n).ip.isUnspecified = false
  plain : unlabelled (net.listenAddr n) = net.listenAddr n
  apart : ∀ m, m ≠ n → ¬ net.KnownAs m (net.listenAddr n)

-- A connection that is none of the node with itself.
structure Proper (net : Internet N) (n : N) (link : Link N) : Prop where
  reaches : net.Reaches link.acceptor link.dialled
  seen : link.source.ip ∈ net.seenAt link.dialler
  apart : link.dialler = n → link.acceptor ≠ n

structure Careful (net : Internet N) (n : N) (x : Exchange N) : Prop where
  listens : ∀ m, (x.nodes m).manager.listenAddr = net.listenAddr m
  calls : ∀ addr ∈ (x.nodes n).calls, unlabelled addr = addr ∨ ¬ net.Reaches n addr
  stored : ∀ addr, Stores (x.nodes n).manager addr → ¬ net.Reaches n addr
  errands : ∀ addr errand, (n,addr,errand) ∈ x.errands → ¬ net.Reaches n addr
  connecting : ∀ addr errand, (n,addr,errand) ∈ x.connecting → ¬ net.Reaches n addr
  arriving : ∀ link ∈ x.arriving, Proper net n link
  greeting : ∀ reader ∈ x.greeting, Proper net n reader.link
  packets : ∀ reader v h t text, (reader,.handshake v h t text) ∈ x.packets →
    text = (net.listenAddr reader.other.owner).toString
  dials : ∀ addr, (n,addr) ∈ x.dials → ¬ net.Reaches n addr

section
omit [DecidableEq N]

theorem specified_reaches (separate : Separate net n) : net.Reaches n addr ↔ unlabelled addr = net.listenAddr n := by
  simp [Internet.Reaches,separate.specified,separate.plain]

theorem knownAs_plain (known : net.KnownAs m addr) : unlabelled addr = addr := by
  unfold Internet.KnownAs at known
  split at known
  · obtain ⟨ip,_,rfl⟩ := known
    cases net.listenAddr m with
    | v4 | v6 => cases ip <;> rfl
  · rw [known,unlabelled_twice]

theorem known_apart (separate : Separate net n) (other : m ≠ n) (known : net.KnownAs m addr) : ¬ net.Reaches n addr := by
  rw [specified_reaches separate,knownAs_plain known]
  rintro rfl
  exact separate.apart m other known

-- The end at `reader` stores the node at the other end under an address of that node.
theorem canonical_known (proper : Proper net n reader.link) : net.KnownAs reader.other.owner
    (canonicalizeAdvertisedAddr reader.connectionAddr (net.listenAddr reader.other.owner).toString) := by
  have seen : (net.listenAddr reader.other.owner).ip.isUnspecified = true →
      reader.connectionAddr.ip ∈ net.seenAt reader.other.owner := by
    obtain ⟨link,direction⟩ := reader
    intro unspecified
    cases direction with
    | inbound => exact proper.seen
    | outbound =>
      have unspecified : (net.listenAddr link.acceptor).ip.isUnspecified = true := unspecified
      have reaches : net.Reaches link.acceptor link.dialled := proper.reaches
      rw [Internet.Reaches,if_pos unspecified] at reaches
      exact reaches.1
  simp only [canonicalizeAdvertisedAddr,parse_toString,AddrText.unlabelled_ip,Internet.KnownAs]
  split
  · rename_i unspecified
    exact ⟨_,seen unspecified,rfl⟩
  · rfl

theorem proper_other (proper : Proper net n reader.link) (owned : reader.owner = n) : reader.other.owner ≠ n := by
  obtain ⟨link,direction⟩ := reader
  cases direction with
  | inbound => exact fun same => proper.apart same owned
  | outbound => exact proper.apart owned

theorem made_proper (careful : Careful net n x) (made : Made net x link) : Proper net n link := by
  refine ⟨made.reaches,made.seen,?_⟩
  rintro rfl same
  exact careful.connecting _ _ made.dialled (same ▸ made.reaches)

-- What is stored is a peer of the table before, or the node at the other end.
theorem stored_careful (separate : Separate net n) (careful : Careful net n x) (caused : Caused x change n event)
    (heard : Heard (x.nodes n) event after) (held : Stores after.manager addr) : ¬ net.Reaches n addr := by
  rcases heard.stored addr held with before | introduced
  · exact careful.stored addr before
  · cases event with
    | firstMessage connectionAddr msg now =>
      cases msg with
      | handshake v h t text =>
        obtain ⟨reader,greeting,owned,rfl,packet⟩ := caused
        have proper := careful.greeting reader greeting
        obtain rfl := careful.packets reader v h t text packet
        rw [introduced]
        exact known_apart separate (proper_other proper owned) (canonical_known proper)
      | getPeers | peers | getBlocks | block | transaction | getHeaders | ping | pong => exact introduced.elim
    | accepted | connectPeer | tested | message | refused | failed | disconnected | swept => exact introduced.elim

end

theorem turn_careful (separate : Separate net n) (careful : Careful net n x) (allowed : NamesOthers net n x change)
    (ran : turn net x change = some (next,())) : Careful net n next := by
  have adds := turn_adds ran
  have dials : ∀ addr, (n,addr) ∈ next.dials → ¬ net.Reaches n addr := by
    intro addr dialled
    rcases adds.dials n addr dialled with before | ⟨after,tested⟩ | ⟨errand,pending⟩
    · exact careful.dials addr before
    · obtain ⟨called,differs⟩ := tested_differs tested
      rw [careful.listens] at differs
      rcases careful.calls addr called with plain | apart
      · rw [specified_reaches separate,plain]
        exact differs
      · exact apart
    · exact careful.errands addr errand pending
  refine ⟨?_,?_,?_,?_,?_,?_,?_,?_,dials⟩
  · intro m
    rcases adds.nodes m with same | ⟨event,goes,_,moved⟩
    · rw [same]
      exact careful.listens m
    · exact (turn_heard moved).listens.trans (careful.listens m)
  · intro addr called
    rcases adds.nodes n with same | ⟨event,goes,caused,moved⟩
    · rw [same] at called
      exact careful.calls addr called
    · rcases (turn_heard moved).calls addr called with before | rfl | plain
      · exact careful.calls addr before
      · cases (caused : change = .connectPeer n addr)
        exact .inr (allowed rfl)
      · exact .inl plain
  · intro addr held
    rcases adds.nodes n with same | ⟨event,goes,caused,moved⟩
    · rw [same] at held
      exact careful.stored addr held
    · exact stored_careful separate careful caused (turn_heard moved) held
  · intro addr errand pending
    rcases adds.errands n addr errand pending with before | held
    · exact careful.errands addr errand before
    · exact careful.stored addr held
  · intro addr errand dialling
    rcases adds.connecting n addr errand dialling with before | dialled
    · exact careful.connecting addr errand before
    · exact dials addr dialled
  · intro link waiting
    rcases adds.arriving link waiting with before | made
    · exact careful.arriving link before
    · exact made_proper careful made
  · intro reader reading
    rcases adds.greeting reader reading with before | arrived | made
    · exact careful.greeting reader before
    · exact careful.arriving _ arrived
    · exact made_proper careful made
  · intro reader v h t text packet
    rcases adds.packets reader v h t text packet with before | named
    · exact careful.packets reader v h t text before
    · rw [named,careful.listens]

theorem run_careful (separate : Separate net n) (path : Ran net n calls x) : Careful net n x := by
  refine Runs.run_invariant (motive := Careful net n) ?_ (turn_careful separate) path
  refine ⟨fun _ => rfl,?_,?_,?_,?_,?_,?_,?_,?_⟩
  · exact fun _ called => absurd called List.not_mem_nil
  · intro addr held
    obtain ⟨k,peer,stored,_⟩ := held
    cases stored
  · exact fun _ _ pending => absurd pending List.not_mem_nil
  · exact fun _ _ dialling => absurd dialling List.not_mem_nil
  · exact fun _ waiting => absurd waiting List.not_mem_nil
  · exact fun _ reading => absurd reading List.not_mem_nil
  · exact fun _ _ _ _ _ packet => absurd packet List.not_mem_nil
  · exact fun _ dialled => absurd dialled List.not_mem_nil

section Rules
variable {y : Exchange N} {rest : List (LinkEnd N × PeerMessage)}

theorem connectPeer_rule (acted : x.act n (.connectPeer addr) = some (y,goes)) :
    turn net x (.connectPeer n addr) = some (y,()) := by
  simp [turn,acted]

theorem tested_rule (acted : x.act n (.tested addr) = some (y,true)) : turn net x (.tested n addr) =
    some ({ y with connecting := (n,addr,.peer) :: y.connecting, dials := (n,addr) :: y.dials },()) := by
  simp [turn,acted]

theorem connected_rule (link : Link N) (moment : Moment) (dialling : (link.dialler,link.dialled,link.errand) ∈ x.connecting)
    (fresh : link ∉ x.links) (reaches : net.Reaches link.acceptor link.dialled)
    (seen : link.source.ip ∈ net.seenAt link.dialler) :
    turn net x (.connected link moment) =
      some ({ x with connecting := x.connecting.erase (link.dialler,link.dialled,link.errand), links := link :: x.links,
                     arriving := link :: x.arriving, greeting := ⟨link,.outbound⟩ :: x.greeting,
                     packets := x.packets ++
                       [(⟨link,.inbound⟩,(x.nodes link.dialler).manager.handshakeAt moment)] },()) := by
  simp only [turn]
  rw [if_pos ⟨dialling,fresh,reaches,seen⟩]
  rfl

theorem accepted_rule (link : Link N) (waiting : link ∈ x.arriving)
    (acted : act { x with arriving := x.arriving.erase link } link.acceptor (.accepted link.source) = some (y,true)) :
    turn net x (.accepted link) = some ({ y with greeting := ⟨link,.inbound⟩ :: y.greeting },()) := by
  simp [turn,waiting,acted]

-- The head of the packets is the next message of its end.
theorem greeted_rule (reader : LinkEnd N) (moment : Moment) (greeting : reader ∈ x.greeting)
    (handled : reader.handled = true)
    (acted : act { x with packets := rest, greeting := x.greeting.erase reader } reader.owner
      (.firstMessage reader.connectionAddr msg moment.now) = some (y,true)) (packets : x.packets = (reader,msg) :: rest) :
    turn net x (.delivered reader moment) =
      some ({ y with serving := reader :: y.serving,
                     packets := y.packets ++ ((y.nodes reader.owner).manager.greetings moment reader.direction).map
                       fun msg => (reader.other,msg) },()) := by
  simp [turn,packets,Exchange.deliver,Exchange.greet,handled,greeting,acted,Exchange.reply,Exchange.send]

theorem served_rule (reader : LinkEnd N) (moment : Moment) (greeting : reader ∉ x.greeting)
    (serving : reader ∈ x.serving) (handled : reader.handled = true)
    (acted : act { x with packets := rest, serving := x.serving.erase reader } reader.owner
      (.message reader.connectionAddr msg moment.now) = some (y,goes)) (packets : x.packets = (reader,msg) :: rest)
    (order : FiniteMap.Yields (y.nodes reader.owner).manager.peers moment.values) :
    turn net x (.delivered reader moment) =
      some ({ y with serving := reader :: y.serving,
                     packets := y.packets ++ (P2pManager.replies moment msg).map fun msg => (reader.other,msg) },()) := by
  simp [turn,packets,Exchange.deliver,Exchange.serve,handled,greeting,serving,acted,Exchange.reply,Exchange.send,order]

theorem broadcast_rule (distinct : peerAddrs.Nodup)
    (taken : peerAddrs.toFinset = (x.nodes n).manager.connectedPeerAddresses originAddr) :
    turn net x (.broadcast n originAddr relayed peerAddrs) =
      some ({ x with errands := peerAddrs.map (fun addr => (n,addr,.broadcast relayed)) ++ x.errands },()) :=
  if_pos ⟨distinct,taken⟩

theorem dialled_rule (localHeight : UInt64) (pending : (n,addr,errand) ∈ x.errands)
    (goes : errand.current localHeight = some now) :
    turn net x (.dialled n addr errand localHeight) =
      some ({ x with errands := x.errands.erase (n,addr,errand), connecting := (n,addr,now) :: x.connecting,
                     dials := (n,addr) :: x.dials },()) := by
  simp [turn,pending,goes]

end Rules
end

variable {node peer after : PeerNetwork} {event : PeerEvent} {listenAddr addr other a b : SocketAddr}

-- A peer, and where the connections of the node come from.
def friend : SocketAddr := .v4 0xc6336407 30303
def source : SocketAddr := .v4 0xcb007109 40000

-- `true` is the node, and `false` its only peer.
def two (node peer : SocketAddr) (nodeSeen peerSeen : Finset IpAddr) : Internet Bool where
  listenAddr := fun n => if n then node else peer
  maxPeers := fun _ => 16
  seenAt := fun n => if n then nodeSeen else peerSeen

def pair (listenAddr : SocketAddr) : Internet Bool := two listenAddr friend {source.ip} ∅

def link : Link Bool := ⟨true,false,friend,source,.peer⟩
def dialler : LinkEnd Bool := ⟨link,.outbound⟩
def acceptor : LinkEnd Bool := ⟨link,.inbound⟩

def quiet (values : List ConnectedPeer) : Moment := ⟨0,0,⟨[],[]⟩,Node.inMemory reference,values⟩
def entry (connectionAddr address : SocketAddr) : ConnectedPeer :=
  ⟨connectionAddr,address,(Node.inMemory reference).blockchain.currentHeight,0,1⟩
def manager (listenAddr : SocketAddr) (peers : PeerTable) : P2pManager := ⟨listenAddr,peers,16⟩
def met (connectionAddr address : SocketAddr) : PeerTable :=
  (∅ : PeerTable).insert connectionAddr (entry connectionAddr address)

def both (node peer : PeerNetwork) : Bool → PeerNetwork := fun n => if n then node else peer
def hello (listenAddr : SocketAddr) : PeerMessage := (manager listenAddr ∅).handshakeAt (quiet [])

theorem both_node : Function.update (both node peer) true after = both after peer := by
  funext n
  cases n <;> rfl
theorem both_peer : Function.update (both node peer) false after = both node after := by
  funext n
  cases n <;> rfl

theorem act_node (ran : PeerNetwork.turn node event = some (after,goes)) :
    act ⟨both node peer,errands,connecting,arriving,links,greeting,serving,packets,dials⟩ true event =
      some (⟨both after peer,errands,connecting,arriving,links,greeting,serving,packets,dials⟩,goes) :=
  act_exact.mpr ⟨after,ran,by rw [both_node]⟩

theorem act_peer (ran : PeerNetwork.turn peer event = some (after,goes)) :
    act ⟨both node peer,errands,connecting,arriving,links,greeting,serving,packets,dials⟩ false event =
      some (⟨both node after,errands,connecting,arriving,links,greeting,serving,packets,dials⟩,goes) :=
  act_exact.mpr ⟨after,ran,by rw [both_peer]⟩

theorem two_nodes (node peer : SocketAddr) (nodeSeen peerSeen : Finset IpAddr) :
    (start (two node peer nodeSeen peerSeen)).nodes = both ⟨manager node ∅,[],[],[]⟩ ⟨manager peer ∅,[],[],[]⟩ := by
  funext n
  cases n <;> rfl

variable {net : Internet Bool} {x y next : Exchange Bool} {change : ExchangeEvent Bool}
def Reached (net : Internet Bool) (x : Exchange Bool) : Prop := ∃ calls, Ran net true calls x

theorem Reached.step (reached : Reached net x) (ran : turn net x change = some (next,()))
    (allowed : NamesOthers net true x change) (same : next = y) : Reached net y := by
  obtain ⟨calls,path⟩ := reached
  exact ⟨_,same ▸ path.step allowed ran⟩

theorem met_yields : FiniteMap.Yields (met a b) [entry a b] := FiniteMap.insert_yields Finmap.notMem_empty rfl

theorem met_addresses : (manager listenAddr (met a b)).connectedPeerAddresses none = {b} := by
  have fresh : a ∉ (∅ : PeerTable) := Finmap.notMem_empty
  have entries : (met a b).entries = {⟨a,entry a b⟩} := by
    rw [met,Finmap.entries_insert_of_notMem fresh]
    rfl
  simp [P2pManager.connectedPeerAddresses,manager,entries,entry]

theorem met_noted : (manager listenAddr (met a b)).notePeerActivity a none 0 = manager listenAddr (met a b) := by
  simp [P2pManager.notePeerActivity,manager,met,entry,Finmap.insert_insert]

theorem friend_self : canonicalizeAdvertisedAddr friend friend.toString = friend := by decide +kernel

theorem skips_stranger (differs : addr ≠ listenAddr) :
    (manager listenAddr ∅).skipsConnection addr = false := by
  have none : ¬ (∅ : PeerTable).any (fun _ peer => decide (peer.address = addr)) = true := by
    simp [FiniteMap.any_exact]
  simp [P2pManager.skipsConnection,manager,differs,none]

theorem skips_other (differs : addr ≠ listenAddr) (other : addr ≠ b) :
    (manager listenAddr (met a b)).skipsConnection addr = false := by
  have none : ¬ (met a b).any (fun _ peer => decide (peer.address = addr)) = true := by
    rw [FiniteMap.any_exact]
    intro ⟨k,peer,stored,same⟩
    rcases FiniteMap.lookup_insert_cases stored with ⟨_,rfl⟩ | ⟨_,before⟩
    · exact other (of_decide_eq_true same).symm
    · cases before
  simp [P2pManager.skipsConnection,manager,differs,none]

theorem greeted_turn (listenAddr : SocketAddr)
    (stored : P2pManager.canonicalizeAdvertisedAddr addr other.toString = address) :
    PeerNetwork.turn ⟨manager listenAddr ∅,[],[addr],[]⟩ (.firstMessage addr (hello other) 0) =
      some (⟨manager listenAddr (met addr address),[],[],[addr]⟩,true) := by
  subst stored
  simp [PeerNetwork.turn]
  rfl

theorem asked_turn : PeerNetwork.turn ⟨manager listenAddr (met a b),[],[],[a]⟩ (.message a .getPeers 0) =
    some (⟨manager listenAddr (met a b),[],[],[a]⟩,true) := by
  simp [PeerNetwork.turn,P2pManager.messageHeight,met_noted,P2pManager.announcedPeers]

theorem told_turn (announced : (manager listenAddr (met a b)).announcedPeers (.peers texts) = called) :
    PeerNetwork.turn ⟨manager listenAddr (met a b),[],[],[a]⟩ (.message a (.peers texts) 0) =
      some (⟨manager listenAddr (met a b),called,[],[a]⟩,true) := by
  simp [PeerNetwork.turn,P2pManager.messageHeight,met_noted,announced]

theorem announced_own : (manager friend peers).announcedPeers (.peers [friend.toString]) = [] := by
  simp [P2pManager.announcedPeers,parse_toString,manager,unlabelled,friend]

theorem announced_other (peers : PeerTable) (plain : unlabelled other = other) (differs : other ≠ listenAddr) :
    (manager listenAddr peers).announcedPeers (.peers [other.toString]) = [other] := by
  simp [P2pManager.announcedPeers,parse_toString,plain,manager,differs]

theorem tested_turn (goes : (manager listenAddr peers).skipsConnection addr = false) :
    PeerNetwork.turn ⟨manager listenAddr peers,[addr],[],serving⟩ (.tested addr) =
      some (⟨manager listenAddr peers,[],[addr],serving⟩,true) := by
  simp [PeerNetwork.turn,goes]

-- The node names its peer, introduces itself, and gets its own address back.
theorem returned_dialled {returned : SocketAddr} (apart : ¬ (pair listenAddr).Reaches true friend)
    (stranger : friend ≠ listenAddr)
    (stored : canonicalizeAdvertisedAddr source listenAddr.toString = returned)
    (plain : unlabelled returned = returned) (differs : returned ≠ listenAddr) (other : returned ≠ friend) :
    ∃ calls x, Ran (pair listenAddr) true calls x ∧ (true,returned) ∈ x.dials := by
  let peer : PeerNetwork := ⟨manager friend (met source returned),[],[],[source]⟩
  let node : PeerNetwork := ⟨manager listenAddr (met friend friend),[],[],[friend]⟩
  have s0 : Reached (pair listenAddr) ⟨both ⟨manager listenAddr ∅,[],[],[]⟩ ⟨manager friend ∅,[],[],[]⟩,
      [],[],[],[],[],[],[],[]⟩ := by
    rw [← two_nodes listenAddr friend {source.ip} ∅]
    exact ⟨[],.nil⟩
  have s1 : Reached (pair listenAddr) ⟨both ⟨manager listenAddr ∅,[friend],[],[]⟩ ⟨manager friend ∅,[],[],[]⟩,
      [],[],[],[],[],[],[],[]⟩ :=
    s0.step (connectPeer_rule (act_node rfl)) (fun _ => apart) rfl
  have s2 : Reached (pair listenAddr) ⟨both ⟨manager listenAddr ∅,[],[friend],[]⟩ ⟨manager friend ∅,[],[],[]⟩,
      [],[(true,friend,.peer)],[],[],[],[],[],[(true,friend)]⟩ :=
    s1.step (tested_rule (act_node (tested_turn (skips_stranger stranger)))) trivial rfl
  have s3 : Reached (pair listenAddr) ⟨both ⟨manager listenAddr ∅,[],[friend],[]⟩ ⟨manager friend ∅,[],[],[]⟩,
      [],[],[link],[link],[dialler],[],[(acceptor,hello listenAddr)],[(true,friend)]⟩ :=
    s2.step (connected_rule link (quiet []) (.head _) List.not_mem_nil rfl
      (Finset.mem_singleton_self _)) trivial rfl
  have s4 : Reached (pair listenAddr) ⟨both ⟨manager listenAddr ∅,[],[friend],[]⟩ ⟨manager friend ∅,[],[source],[]⟩,
      [],[],[],[link],[acceptor,dialler],[],[(acceptor,hello listenAddr)],[(true,friend)]⟩ :=
    s3.step (accepted_rule link (.head _) (act_peer rfl)) trivial rfl
  have met5 := greeted_turn friend stored
  have s5 : Reached (pair listenAddr) ⟨both ⟨manager listenAddr ∅,[],[friend],[]⟩ peer,
      [],[],[],[link],[dialler],[acceptor],[(dialler,hello friend),(dialler,.getPeers)],[(true,friend)]⟩ :=
    s4.step (greeted_rule acceptor (quiet []) (.head _) rfl (act_peer met5) rfl) trivial rfl
  have met6 := greeted_turn listenAddr friend_self
  have s6 : Reached (pair listenAddr) ⟨both node peer,
      [],[],[],[link],[],[dialler,acceptor],[(dialler,.getPeers),(acceptor,.getPeers)],[(true,friend)]⟩ :=
    s5.step (greeted_rule dialler (quiet []) (.head _) rfl (act_node met6) rfl) trivial rfl
  have s7 : Reached (pair listenAddr) ⟨both node peer,
      [],[],[],[link],[],[dialler,acceptor],
      [(acceptor,.getPeers),(acceptor,.peers [friend.toString])],[(true,friend)]⟩ :=
    s6.step (served_rule dialler (quiet [entry friend friend]) List.not_mem_nil (.head _) rfl
      (act_node asked_turn) rfl met_yields) trivial rfl
  have s8 : Reached (pair listenAddr) ⟨both node peer,
      [],[],[],[link],[],[acceptor,dialler],
      [(acceptor,.peers [friend.toString]),(dialler,.peers [returned.toString])],[(true,friend)]⟩ :=
    s7.step (served_rule acceptor (quiet [entry source returned]) List.not_mem_nil
      (.tail _ (.head _)) rfl (act_peer asked_turn) rfl met_yields) trivial rfl
  have s9 : Reached (pair listenAddr) ⟨both node peer,
      [],[],[],[link],[],[acceptor,dialler],[(dialler,.peers [returned.toString])],[(true,friend)]⟩ :=
    s8.step (served_rule acceptor (quiet [entry source returned]) List.not_mem_nil
      (.head _) rfl (act_peer (told_turn announced_own)) rfl met_yields) trivial rfl
  have told := announced_other (met friend friend) plain differs
  have s10 : Reached (pair listenAddr) ⟨both { node with calls := [returned] } peer,
      [],[],[],[link],[],[dialler,acceptor],[],[(true,friend)]⟩ :=
    s9.step (served_rule dialler (quiet [entry friend friend]) List.not_mem_nil (.tail _ (.head _)) rfl
      (act_node (told_turn told)) rfl met_yields) trivial rfl
  have dialled := skips_other (a := friend) differs other
  obtain ⟨calls,path⟩ := s10.step (tested_rule (act_node (tested_turn dialled))) trivial rfl
  exact ⟨calls,_,path,.head _⟩

-- Some run ends in a connection of the node to itself, in an internet that has another
-- node under the address only where that is `shared`.
def DialsItself (listenAddr : SocketAddr) (shared : Prop) : Prop := ∃ net : Internet Bool, ∃ calls x addr,
  net.listenAddr true = listenAddr ∧ (net.KnownAs false listenAddr → shared) ∧ Ran net true calls x ∧
    (true,addr) ∈ x.dials ∧ net.Reaches true addr

theorem setIp_source (addr : SocketAddr) : addr.setIp source.ip = .v4 0xcb007109 addr.port := by
  cases addr with
  | v4 | v6 => rfl

theorem friend_known (listenAddr : SocketAddr) : (pair listenAddr).KnownAs false addr ↔ addr = friend := by
  rfl

theorem unspecified_dials (unspecified : listenAddr.ip.isUnspecified = true) (shared : Prop) :
    DialsItself listenAddr shared := by
  let returned : SocketAddr := .v4 0xcb007109 listenAddr.port
  have stored : canonicalizeAdvertisedAddr source listenAddr.toString = returned := by
    simp [canonicalizeAdvertisedAddr,parse_toString,unspecified,setIp_source,returned]
  have reaches : ∀ addr, (pair listenAddr).Reaches true addr ↔ addr.ip = source.ip ∧ addr.port = listenAddr.port := by
    intro addr
    simp [Internet.Reaches,pair,two,unspecified]
  have specified : ∀ addr : SocketAddr, addr.ip.isUnspecified = false → addr ≠ listenAddr := by
    rintro addr specified rfl
    rw [unspecified] at specified
    cases specified
  have apart : ¬ (pair listenAddr).Reaches true friend := by
    rw [reaches]
    intro ⟨same,_⟩
    revert same
    decide
  have other : returned ≠ friend := by
    intro same
    have differ : IpAddr.v4 0xcb007109 ≠ IpAddr.v4 0xc6336407 := by decide
    exact differ (congrArg SocketAddr.ip same)
  have alone := specified friend rfl
  obtain ⟨calls,x,path,dialled⟩ := returned_dialled apart alone stored rfl (specified returned rfl) other
  refine ⟨pair listenAddr,calls,x,returned,rfl,?_,path,dialled,(reaches returned).mpr ⟨rfl,rfl⟩⟩
  exact fun known => absurd ((friend_known listenAddr).mp known).symm alone

theorem labelled_dials (specified : listenAddr.ip.isUnspecified = false)
    (labelled : unlabelled listenAddr ≠ listenAddr) (shared : Prop) : DialsItself listenAddr shared := by
  have stored : canonicalizeAdvertisedAddr source listenAddr.toString = unlabelled listenAddr := by
    simp [canonicalizeAdvertisedAddr,parse_toString,specified]
  have reaches : ∀ addr, (pair listenAddr).Reaches true addr ↔ unlabelled addr = unlabelled listenAddr := by
    intro addr
    simp [Internet.Reaches,pair,two,specified]
  have other : unlabelled listenAddr ≠ friend := by
    cases listenAddr with
    | v4 => exact absurd rfl labelled
    | v6 => exact fun same => by cases same
  have stranger : friend ≠ listenAddr := by
    intro same
    exact other (same ▸ rfl)
  have apart : ¬ (pair listenAddr).Reaches true friend := by
    rw [reaches]
    exact fun same => other same.symm
  obtain ⟨calls,x,path,dialled⟩ :=
    returned_dialled apart stranger stored (unlabelled_twice _) labelled other
  refine ⟨pair listenAddr,calls,x,_,rfl,?_,path,dialled,(reaches _).mpr (unlabelled_twice _)⟩
  exact fun known => absurd ((friend_known listenAddr).mp known).symm stranger

-- A node that listens on every IP of its own, with the port of the node, and whose
-- connections are seen to come from the IP of the node.
def anywhere : SocketAddr → SocketAddr
  | .v4 _ port => .v4 0 port
  | .v6 _ port flowinfo scopeId => .v6 0 port flowinfo scopeId

theorem anywhere_unspecified (addr : SocketAddr) : (anywhere addr).ip.isUnspecified = true := by
  cases addr with
  | v4 | v6 => rfl

theorem anywhere_setIp (plain : unlabelled addr = addr) : (unlabelled (anywhere addr)).setIp addr.ip = addr := by
  cases addr with
  | v4 => rfl
  | v6 => exact plain

def minedRelay : Relayed := .block earnBlock

-- The other node calls, and is stored under the address of the node; the block that the
-- node mines is sent there.
theorem shared_dials (specified : listenAddr.ip.isUnspecified = false) (plain : unlabelled listenAddr = listenAddr)
    (shared : Prop) (holds : shared) : DialsItself listenAddr shared := by
  let net := two listenAddr (anywhere listenAddr) ∅ {listenAddr.ip}
  let call : Link Bool := ⟨false,true,listenAddr,listenAddr,.peer⟩
  have s0 : Reached net ⟨both ⟨manager listenAddr ∅,[],[],[]⟩ ⟨manager (anywhere listenAddr) ∅,[],[],[]⟩,
      [],[],[],[],[],[],[],[]⟩ := by
    rw [← two_nodes listenAddr (anywhere listenAddr) ∅ {listenAddr.ip}]
    exact ⟨[],.nil⟩
  have apart : listenAddr ≠ anywhere listenAddr := by
    intro same
    rw [same,anywhere_unspecified] at specified
    cases specified
  have s1 : Reached net ⟨both ⟨manager listenAddr ∅,[],[],[]⟩ ⟨manager (anywhere listenAddr) ∅,[listenAddr],[],[]⟩,
      [],[],[],[],[],[],[],[]⟩ :=
    s0.step (connectPeer_rule (act_peer rfl)) nofun rfl
  have s2 : Reached net ⟨both ⟨manager listenAddr ∅,[],[],[]⟩ ⟨manager (anywhere listenAddr) ∅,[],[listenAddr],[]⟩,
      [],[(false,listenAddr,.peer)],[],[],[],[],[],[(false,listenAddr)]⟩ :=
    s1.step (tested_rule (act_peer (tested_turn (skips_stranger apart)))) trivial rfl
  have reaches : net.Reaches true listenAddr := by
    simp [net,Internet.Reaches,two,specified]
  have s3 : Reached net ⟨both ⟨manager listenAddr ∅,[],[],[]⟩ ⟨manager (anywhere listenAddr) ∅,[],[listenAddr],[]⟩,
      [],[],[call],[call],[⟨call,.outbound⟩],[],[(⟨call,.inbound⟩,hello (anywhere listenAddr))],[(false,listenAddr)]⟩ :=
    s2.step (connected_rule call (quiet []) (.head _) List.not_mem_nil reaches
      (Finset.mem_singleton_self _)) trivial (by rw [List.erase_cons_head]; rfl)
  have s4 : Reached net ⟨both ⟨manager listenAddr ∅,[],[listenAddr],[]⟩ ⟨manager (anywhere listenAddr) ∅,[],[listenAddr],[]⟩,
      [],[],[],[call],[⟨call,.inbound⟩,⟨call,.outbound⟩],[],[(⟨call,.inbound⟩,hello (anywhere listenAddr))],
      [(false,listenAddr)]⟩ :=
    s3.step (accepted_rule call (.head _) (act_node rfl)) trivial (by simp only [List.erase_cons_head]; rfl)
  have stored : canonicalizeAdvertisedAddr listenAddr (anywhere listenAddr).toString = listenAddr := by
    simp [canonicalizeAdvertisedAddr,parse_toString,anywhere_unspecified,anywhere_setIp plain]
  have s5 : Reached net ⟨both ⟨manager listenAddr (met listenAddr listenAddr),[],[],[listenAddr]⟩
      ⟨manager (anywhere listenAddr) ∅,[],[listenAddr],[]⟩,
      [],[],[],[call],[⟨call,.outbound⟩],[⟨call,.inbound⟩],
      [(⟨call,.outbound⟩,hello listenAddr),(⟨call,.outbound⟩,.getPeers)],[(false,listenAddr)]⟩ :=
    s4.step (greeted_rule ⟨call,.inbound⟩ (quiet []) (.head _) rfl (act_node (greeted_turn listenAddr stored)) rfl) trivial
      (by simp only [List.erase_cons_head]; rfl)
  have s6 : Reached net ⟨both ⟨manager listenAddr (met listenAddr listenAddr),[],[],[listenAddr]⟩
      ⟨manager (anywhere listenAddr) ∅,[],[listenAddr],[]⟩,
      [(true,listenAddr,.broadcast minedRelay)],[],[],[call],[⟨call,.outbound⟩],[⟨call,.inbound⟩],
      [(⟨call,.outbound⟩,hello listenAddr),(⟨call,.outbound⟩,.getPeers)],[(false,listenAddr)]⟩ :=
    s5.step (broadcast_rule (List.nodup_singleton listenAddr) met_addresses.symm) trivial rfl
  obtain ⟨calls,path⟩ := s6.step (dialled_rule 0 (.head _) rfl) trivial rfl
  exact ⟨net,calls,_,listenAddr,rfl,fun _ => holds,path,.head _,reaches⟩

def defaultAddr : SocketAddr := .v4 0 30303

end BlindEye.SelfPeering
