import BlindEye.NodeDisk
import BlindEye.SharedTurns

namespace BlindEye

-- A call of `save_state` that has copied the state. `created` is set when the file is
-- open, which leaves it empty.
structure Save where
  serialized : List UInt8
  created : Bool
  deriving DecidableEq

structure NodeProcess where
  shared : SharedNode
  peerManager : PeerManager
  saves : List Save

-- The file of the node, and the processes that were started on its path: the window
-- and every command of the command line are one each.
structure NodeHost where
  file : Option (List UInt8)
  processes : List NodeProcess

inductive HostEvent where
  | launch (network : Option NetworkConfig)
  | turn (i : Nat) (t : Turn)
  | peersChanged (i : Nat) (peers : List Peer)
  | copied (i : Nat) (stored : StoredNode)
  | created (i : Nat) (save : Save)
  | written (i : Nat) (save : Save)
  | torn (i : Nat) (save : Save) (count : Nat)
  | killed (i : Nat)

inductive HostReply where
  | done
  | refused
  | answered (answer : Answer)

-- `load_or_create` before it saves. Nothing is "Failed to parse node state".
def NodeDiskState.loadOrCreate (c : Crates) (file : Option (List UInt8)) (network : Option NetworkConfig) :
    Option NodeDiskState :=
  match file with
  | some contents => deserialize contents
  | none => some ⟨.new c,.new 10000 1,.new (network.getD .default)⟩

def NodeDiskState.node (state : NodeDiskState) : Node := ⟨state.blockchain,state.mempool⟩

def NodeProcess.start (state : NodeDiskState) : NodeProcess := ⟨⟨state.node,[]⟩,state.peerManager,[]⟩

-- The three mutexes are held together while the state is copied.
def NodeProcess.state (process : NodeProcess) : NodeDiskState :=
  ⟨process.shared.node.blockchain,process.shared.node.mempool,process.peerManager⟩

namespace NodeHost

def put (x : NodeHost) (i : Nat) (process : NodeProcess) : NodeHost := { x with processes := x.processes.set i process }

def exit (x : NodeHost) (i : Nat) : NodeHost := { x with processes := x.processes.eraseIdx i }

-- A write begins at the start of the file and leaves what is behind its bytes.
def overwrite (file : Option (List UInt8)) (serialized : List UInt8) : Option (List UInt8) :=
  some (serialized ++ (file.getD []).drop serialized.length)

-- One section of one thread of a process, or the end of a process.
def turn (c : Crates) (x : NodeHost) : HostEvent → Option (NodeHost × HostReply)
  | .launch network =>
    match NodeDiskState.loadOrCreate c x.file network with
    | none => some (x,.refused)
    | some state => some ({ x with processes := x.processes ++ [.start state] },.done)
  | .turn i t => x.processes[i]?.bind fun process =>
      (process.shared.turn c t).map fun (shared,answer) => (x.put i { process with shared },.answered answer)
  | .peersChanged i peers => x.processes[i]?.map fun process =>
      (x.put i { process with peerManager := { process.peerManager with peers } },.done)
  | .copied i stored => x.processes[i]?.bind fun process =>
      if stored.Walks process.state then
        some (x.put i { process with saves := ⟨stored.serialize,false⟩ :: process.saves },.done)
      else none
  | .created i save => x.processes[i]?.bind fun process =>
      if save ∈ process.saves ∧ save.created = false then
        let saves := { save with created := true } :: process.saves.erase save
        some ({ x.put i { process with saves } with file := some [] },.done)
      else none
  | .written i save => x.processes[i]?.bind fun process =>
      if save ∈ process.saves ∧ save.created = true then
        let file := overwrite x.file save.serialized
        some ({ x.put i { process with saves := process.saves.erase save } with file },.done)
      else none
  -- The process ends in its write.
  | .torn i save count => x.processes[i]?.bind fun process =>
      if save ∈ process.saves ∧ save.created = true then
        some ({ x.exit i with file := overwrite x.file (save.serialized.take count) },.done)
      else none
  | .killed i => x.processes[i]?.map fun _ => (x.exit i,.done)

end NodeHost

namespace NodeRestarts
open NodeHost SharedTurns

variable {c : Crates} {x next : NodeHost} {y later : SharedNode} {process : NodeProcess} {state : NodeDiskState}
  {calls : List (HostEvent × HostReply)} {contents serialized : List UInt8} {save : Save}

-- A node that was never saved and loaded comes to this node, with these transactions quoted.
def Serves (c : Crates) (node : Node) (quoted : Multiset (Transaction × UInt64)) : Prop :=
  ∃ turns shared, Served c (fun _ _ => True) turns shared ∧ shared.node = node ∧
    (shared.quoted : Multiset (Transaction × UInt64)) = quoted

-- The same for each choice among the quoted transactions: the callers that are lost
-- in a restart had quoted theirs without effect.
def ServesAll (c : Crates) (y : SharedNode) : Prop :=
  ∀ quoted ≤ (y.quoted : Multiset (Transaction × UInt64)), Serves c y.node quoted

theorem Serves.turn (serves : Serves c y.node quoted) (answer : Answer)
    (ran : ∀ shared : SharedNode, shared.node = y.node → (shared.quoted : Multiset (Transaction × UInt64)) = quoted →
      ∃ next, shared.turn c t = some (next,answer) ∧ next.node = later.node ∧
        (next.quoted : Multiset (Transaction × UInt64)) = kept) : Serves c later.node kept := by
  obtain ⟨turns,shared,path,node,held⟩ := serves
  obtain ⟨next,turned,same,left⟩ := ran shared node held
  exact ⟨_,next,path.step trivial turned,same,left⟩

-- A section that does not touch the quoted transactions.
theorem Serves.other (all : ServesAll c y) (unquoted : later.quoted = y.quoted) (answer : Answer)
    (ran : ∀ shared : SharedNode, shared.node = y.node →
      shared.turn c t = some ({ shared with node := later.node },answer)) :
    ServesAll c later := by
  intro kept fewer
  rw [unquoted] at fewer
  exact (all kept fewer).turn answer fun shared node held => ⟨_,ran shared node,rfl,held⟩

theorem quoted_erase {quoted : List (Transaction × UInt64)} (held : entry ∈ quoted) :
    (quoted : Multiset (Transaction × UInt64)) = entry ::ₘ ((quoted.erase entry : List _) : Multiset _) :=
  Multiset.coe_eq_coe.mpr (List.perm_cons_erase held)

theorem quoted_cons {quoted : List (Transaction × UInt64)} {kept : Multiset (Transaction × UInt64)}
    (whole : (quoted : Multiset (Transaction × UInt64)) = entry ::ₘ kept) :
    entry ∈ quoted ∧ ((quoted.erase entry : List _) : Multiset (Transaction × UInt64)) = kept := by
  have member : entry ∈ quoted := by
    rw [← Multiset.mem_coe,whole]
    exact Multiset.mem_cons_self _ _
  rw [quoted_erase member,Multiset.cons_inj_right] at whole
  exact ⟨member,whole⟩

theorem quote_serves (all : ServesAll c y) (quoted : Node.quoteFee c y.node.blockchain transaction = .ok feePaid) :
    ServesAll c { y with quoted := (transaction,feePaid) :: y.quoted } := by
  intro kept fewer
  -- the other node quotes only what is kept
  by_cases entered : (transaction,feePaid) ∈ kept
  · have before : kept.erase (transaction,feePaid) ≤ (y.quoted : Multiset (Transaction × UInt64)) :=
      Multiset.erase_le_iff_le_cons.mpr fewer
    refine (all _ before).turn (t := .quote transaction) (.ok ()) fun shared node held => ?_
    refine ⟨{ shared with quoted := (transaction,feePaid) :: shared.quoted },?_,node,?_⟩
    · simp only [SharedNode.turn,node,quoted]
    · rw [← Multiset.cons_coe,held]
      exact Multiset.cons_erase entered
  · exact all kept ((Multiset.le_cons_of_notMem entered).mp fewer)

-- The section that enters a quoted transaction, whatever comes of it.
theorem enter_serves (all : ServesAll c y) (held : entry ∈ y.quoted) (unquoted : later.quoted = y.quoted.erase entry)
    (answer : Answer) (ran : ∀ shared : SharedNode, shared.node = y.node → entry ∈ shared.quoted →
      shared.turn c t = some (⟨later.node,shared.quoted.erase entry⟩,answer)) : ServesAll c later := by
  intro kept fewer
  rw [unquoted] at fewer
  have more : entry ::ₘ kept ≤ (y.quoted : Multiset (Transaction × UInt64)) := by
    rw [quoted_erase held]
    exact Multiset.cons_le_cons _ fewer
  refine (all _ more).turn (t := t) answer fun shared node whole => ?_
  obtain ⟨member,left⟩ := quoted_cons whole
  exact ⟨_,ran shared node member,rfl,left⟩

-- The next node may have dropped what a caller had quoted.
theorem turn_serves (all : ServesAll c y) (ran : y.turn c t = some (later,answer)) : ServesAll c later := by
  cases t with
  | quote transaction =>
    simp only [SharedNode.turn] at ran
    split at ran
    · cases ran
      exact all
    · rename_i feePaid quoted
      cases ran
      exact quote_serves all quoted
  | enter transaction feePaid now =>
    simp only [SharedNode.turn] at ran
    split at ran
    · cases ran
    · rename_i held
      have held := not_not.mp held
      split at ran
      · rename_i text refused
        cases ran
        refine enter_serves (t := .enter transaction feePaid now) all held rfl (.error text) ?_
        intro shared node member
        simp only [SharedNode.turn,member,not_true,if_false,node,refused]
      · rename_i mempool accepted
        cases ran
        refine enter_serves (t := .enter transaction feePaid now) all held rfl (.ok ()) ?_
        intro shared node member
        simp only [SharedNode.turn,member,not_true,if_false,node,accepted]
  | submitBlock block =>
    obtain ⟨⟨node,reply⟩,submitted,equal⟩ := Option.map_eq_some_iff.mp ran
    cases equal
    refine Serves.other (t := .submitBlock block) all rfl answer fun shared same => ?_
    simp only [SharedNode.turn,same,submitted,Option.map_some]
  | resetBlockchain =>
    cases ran
    exact Serves.other (t := .resetBlockchain) all rfl (.ok ()) fun shared same => by simp only [SharedNode.turn,same]
  | resetMempool =>
    cases ran
    exact Serves.other (t := .resetMempool) all rfl (.ok ()) fun shared same => by simp only [SharedNode.turn,same]

-- A usize holds every length of what is saved, and a process that ends in its write is
-- the first one to write to the file that was created.
def Careful (x : NodeHost) : HostEvent → Prop
  | .copied _ stored => stored.Addressable
  | .torn _ _ _ => x.file = some []
  | _ => True

instance (x : NodeHost) : DecidablePred (Careful x)
  | .copied _ stored => inferInstanceAs (Decidable stored.Addressable)
  | .torn _ _ _ => inferInstanceAs (Decidable (x.file = some []))
  | .launch _ | .turn _ _ | .peersChanged _ _ | .created _ _ | .written _ _ | .killed _ => isTrue trivial

abbrev Hosted (c : Crates) := Runs.Run (NodeHost.turn c) Careful ⟨none,[]⟩

-- A process had this state in memory at some moment of the calls.
def Past (c : Crates) (calls : List (HostEvent × HostReply)) (state : NodeDiskState) : Prop :=
  ∃ earlier later mid, calls = earlier ++ later ∧ Hosted c earlier mid ∧ ∃ process ∈ mid.processes, process.state = state

-- The bytes of a state that a process had in memory.
def Copied (c : Crates) (calls : List (HostEvent × HostReply)) (serialized : List UInt8) : Prop :=
  ∃ (stored : StoredNode) (state : NodeDiskState), Past c calls state ∧ Serves c state.node 0 ∧
    stored.Walks state ∧ stored.Addressable ∧ stored.serialize = serialized

-- The file is a copy, with the rest of another behind it, or a copy that was cut.
def Legible (c : Crates) (calls : List (HostEvent × HostReply)) (contents : List UInt8) : Prop :=
  ∃ serialized, Copied c calls serialized ∧
    ((∃ rest, contents = serialized ++ rest) ∨ ∃ cut, serialized = contents ++ cut ∧ cut ≠ [])

structure Backed (c : Crates) (calls : List (HostEvent × HostReply)) (x : NodeHost) : Prop where
  serves : ∀ process ∈ x.processes, ServesAll c process.shared
  saves : ∀ process ∈ x.processes, ∀ save ∈ process.saves, Copied c calls save.serialized
  file : ∀ contents, x.file = some contents → Legible c calls contents

theorem Past.more (past : Past c calls state) (more : List (HostEvent × HostReply)) : Past c (calls ++ more) state := by
  obtain ⟨earlier,later,mid,rfl,path,held⟩ := past
  exact ⟨earlier,later ++ more,mid,List.append_assoc _ _ _,path,held⟩

theorem Copied.more (copied : Copied c calls serialized) (more : List (HostEvent × HostReply)) :
    Copied c (calls ++ more) serialized := by
  obtain ⟨stored,state,past,rest⟩ := copied
  exact ⟨stored,state,past.more more,rest⟩

theorem Backed.more (backed : Backed c calls x) (more : List (HostEvent × HostReply)) : Backed c (calls ++ more) x := by
  refine ⟨backed.serves,fun process held save member => (backed.saves process held save member).more more,?_⟩
  intro contents held
  obtain ⟨serialized,copied,shape⟩ := backed.file contents held
  exact ⟨serialized,copied.more more,shape⟩

-- A process changes, and the file stays or becomes legible otherwise.
theorem Backed.put (backed : Backed c calls x) (i : Nat) (process : NodeProcess) (serves : ServesAll c process.shared)
    (saves : ∀ save ∈ process.saves, Copied c calls save.serialized) : Backed c calls (x.put i process) := by
  refine ⟨?_,?_,backed.file⟩
  · intro other member
    rcases List.mem_or_eq_of_mem_set member with member | rfl
    · exact backed.serves other member
    · exact serves
  · intro other member
    rcases List.mem_or_eq_of_mem_set member with member | rfl
    · exact backed.saves other member
    · exact saves

theorem Backed.exit (backed : Backed c calls x) (i : Nat) : Backed c calls (x.exit i) :=
  ⟨fun process member => backed.serves process (List.mem_of_mem_eraseIdx member),
    fun process member => backed.saves process (List.mem_of_mem_eraseIdx member),backed.file⟩

theorem Backed.refile (backed : Backed c calls x) (legible : Legible c calls contents) :
    Backed c calls { x with file := some contents } := by
  refine ⟨backed.serves,backed.saves,?_⟩
  rintro _ same
  cases same
  exact legible

theorem serialize_nonempty (stored : StoredNode) (addressable : stored.Addressable) : stored.serialize ≠ [] := by
  intro empty
  have whole := BincodeFormat.storedNode.roundtrip stored [] (StoredNode.addressable_fits addressable)
  change BincodeFormat.storedNode.read (stored.serialize ++ []) = _ at whole
  rw [empty] at whole
  cases whole

theorem Copied.created (copied : Copied c calls serialized) : Legible c calls [] := by
  obtain ⟨stored,state,past,serves,walks,addressable,rfl⟩ := copied
  exact ⟨_,⟨stored,state,past,serves,walks,addressable,rfl⟩,.inr ⟨_,rfl,serialize_nonempty stored addressable⟩⟩

theorem Copied.written (copied : Copied c calls serialized) (rest : List UInt8) : Legible c calls (serialized ++ rest) :=
  ⟨serialized,copied,.inl ⟨rest,rfl⟩⟩

theorem Copied.torn (copied : Copied c calls serialized) (count : Nat) : Legible c calls (serialized.take count) := by
  refine ⟨serialized,copied,?_⟩
  by_cases all : serialized.drop count = []
  · refine .inl ⟨[],?_⟩
    have whole := List.take_append_drop count serialized
    rw [all,List.append_nil] at whole
    rw [whole,List.append_nil]
  · exact .inr ⟨_,(List.take_append_drop _ _).symm,all⟩

-- What is loaded is a state that a process had, and only a save that was cut is refused.
theorem Legible.loads (legible : Legible c calls contents) :
    (∃ state, NodeDiskState.deserialize contents = some state ∧ Past c calls state ∧ Serves c state.node 0) ∨
    NodeDiskState.deserialize contents = none ∧ ∃ (stored : StoredNode) (state : NodeDiskState) (cut : List UInt8),
      Past c calls state ∧ stored.Walks state ∧ stored.serialize = contents ++ cut ∧ cut ≠ [] := by
  obtain ⟨_,⟨stored,state,past,serves,walks,addressable,rfl⟩,shape⟩ := legible
  rcases shape with ⟨rest,rfl⟩ | ⟨cut,whole,left⟩
  · exact .inl ⟨state,NodeDiskState.saved_loads walks addressable rest,past,serves⟩
  · exact .inr ⟨NodeDiskState.cut_refused addressable whole left,stored,state,cut,past,walks,whole,left⟩

theorem unquoted_serves (serves : Serves c node 0) : ServesAll c ⟨node,[]⟩ := by
  intro kept fewer
  rw [Multiset.le_zero.mp fewer]
  exact serves

theorem fresh_serves (c : Crates) : Serves c (.inMemory c) 0 := ⟨[],.inMemory c,.nil,rfl,rfl⟩

theorem loaded_serves (backed : Backed c calls x) (loaded : NodeDiskState.loadOrCreate c x.file network = some state) :
    Serves c state.node 0 := by
  unfold NodeDiskState.loadOrCreate at loaded
  split at loaded
  · rename_i contents held
    rcases (backed.file contents held).loads with ⟨_,read,_,serves⟩ | ⟨refused,_⟩
    · rw [read] at loaded
      cases loaded
      exact serves
    · rw [refused] at loaded
      cases loaded
  · cases loaded
    exact fresh_serves c

theorem Backed.launch (backed : Backed c calls x) (serves : Serves c state.node 0) :
    Backed c calls { x with processes := x.processes ++ [.start state] } := by
  refine ⟨?_,?_,backed.file⟩
  · intro process member
    rcases List.mem_append.mp member with member | member
    · exact backed.serves process member
    · rw [List.mem_singleton.mp member]
      exact unquoted_serves serves
  · intro process member save inside
    rcases List.mem_append.mp member with member | member
    · exact backed.saves process member save inside
    · rw [List.mem_singleton.mp member] at inside
      cases inside

theorem turn_backed (path : Hosted c calls x) (backed : Backed c calls x) (careful : Careful x event)
    (ran : x.turn c event = some (next,reply)) : Backed c calls next := by
  cases event with
  | launch network =>
    simp only [NodeHost.turn] at ran
    split at ran
    · cases ran
      exact backed
    · rename_i state loaded
      cases ran
      exact backed.launch (loaded_serves backed loaded)
  | turn i t =>
    obtain ⟨process,held,later⟩ := Option.bind_eq_some_iff.mp ran
    obtain ⟨⟨shared,answer⟩,turned,equal⟩ := Option.map_eq_some_iff.mp later
    cases equal
    have member := List.mem_of_getElem? held
    exact backed.put i { process with shared } (turn_serves (backed.serves process member) turned)
      (backed.saves process member)
  | peersChanged i peers =>
    obtain ⟨process,held,equal⟩ := Option.map_eq_some_iff.mp ran
    cases equal
    have member := List.mem_of_getElem? held
    exact backed.put i { process with peerManager := { process.peerManager with peers } }
      (backed.serves process member) (backed.saves process member)
  | copied i stored =>
    obtain ⟨process,held,later⟩ := Option.bind_eq_some_iff.mp ran
    have member := List.mem_of_getElem? held
    split at later
    · rename_i walks
      cases later
      refine backed.put i { process with saves := ⟨stored.serialize,false⟩ :: process.saves }
        (backed.serves process member) ?_
      intro save inside
      rcases List.mem_cons.mp inside with rfl | inside
      · exact ⟨stored,process.state,⟨calls,[],x,(List.append_nil _).symm,path,process,member,rfl⟩,
          backed.serves process member 0 (Multiset.zero_le _),walks,careful,rfl⟩
      · exact backed.saves process member save inside
    · cases later
  | created i save =>
    obtain ⟨process,held,later⟩ := Option.bind_eq_some_iff.mp ran
    have member := List.mem_of_getElem? held
    split at later
    · rename_i waiting
      cases later
      have copied := backed.saves process member
      refine (backed.put i { process with saves := { save with created := true } :: process.saves.erase save }
        (backed.serves process member) ?_).refile (copied save waiting.1).created
      intro other inside
      rcases List.mem_cons.mp inside with rfl | inside
      · exact copied save waiting.1
      · exact copied other (List.mem_of_mem_erase inside)
    · cases later
  | written i save =>
    obtain ⟨process,held,later⟩ := Option.bind_eq_some_iff.mp ran
    have member := List.mem_of_getElem? held
    split at later
    · rename_i opened
      cases later
      have copied := backed.saves process member
      refine (backed.put i { process with saves := process.saves.erase save }
        (backed.serves process member) ?_).refile ((copied save opened.1).written _)
      exact fun other inside => copied other (List.mem_of_mem_erase inside)
    · cases later
  | torn i save count =>
    obtain ⟨process,held,later⟩ := Option.bind_eq_some_iff.mp ran
    have member := List.mem_of_getElem? held
    split at later
    · rename_i opened
      cases later
      have empty : x.file = some [] := careful
      have short : overwrite x.file (save.serialized.take count) = some (save.serialized.take count) := by
        simp [overwrite,empty]
      rw [short]
      exact (backed.exit i).refile ((backed.saves process member save opened.1).torn count)
    · cases later
  | killed i =>
    obtain ⟨process,held,equal⟩ := Option.map_eq_some_iff.mp ran
    cases equal
    exact backed.exit i

theorem hosted_backed (path : Hosted c calls x) : Backed c calls x := by
  induction path with
  | nil => exact ⟨nofun,nofun,nofun⟩
  | step before careful ran ih => exact (turn_backed before ih careful ran).more _

-- The older of two saves is written last, and is shorter: the next launch comes back
-- to the genesis block.
def overlapEvents : List HostEvent :=
  let older := NodeDiskState.genesisStored
  let newer := NodeDiskState.earnedStored
  [.launch none,.copied 0 older,.turn 0 (.submitBlock earnBlock),.copied 0 newer,
    .created 0 ⟨older.serialize,false⟩,.created 0 ⟨newer.serialize,false⟩,.written 0 ⟨newer.serialize,true⟩,
    .written 0 ⟨older.serialize,true⟩,.launch none]

end NodeRestarts

end BlindEye
