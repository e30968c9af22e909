import BlindEye.HonestMiners
import BlindEye.MinerSessions

namespace BlindEye

-- A node and its miner, whose closures are calls of the node.
structure MiningNode where
  shared : SharedNode
  miner : Miner

inductive MiningCall where
  | miner (call : MinerCall)
  | controller (i : Nat) (values : List MempoolEntry) (now : UInt64) (minerAddress : List UInt8)
  | turn (t : Turn)

def MiningNode.turn (c : Crates) (x : MiningNode) : MiningCall → Option (MiningNode × MinerAnswer)
  | .miner (.controller _ _ _) => none
  | .miner call => (x.miner.turn c call).map fun (miner,answer) => ({ x with miner },answer)
  | .controller i values now minerAddress =>
    let made := x.shared.node.createBlockTemplate c Blockchain.nextWorkBits values now minerAddress
    match x.miner.controllers[i]?.bind Controller.submits with
    | none => (x.miner.turn c (.controller i made (.ok ()))).map fun (miner,answer) => ({ x with miner },answer)
    | some block =>
      (x.shared.turn c (.submitBlock block)).bind fun (shared,accepted) =>
        (x.miner.turn c (.controller i made accepted)).map fun (miner,answer) => (⟨shared,miner⟩,answer)
  | .turn t => (x.shared.turn c t).map fun (shared,answer) => ({ x with shared },.answered answer)

-- Nodes with miners, and the blocks that these have submitted. Each of them comes to
-- any node at any time, as often as it likes or not at all.
structure MiningNetwork (N : Type) where
  nodes : N → MiningNode
  mined : List Block

inductive MiningEvent (N : Type) where
  | node (n : N) (call : MiningCall)
  | deliver (n : N) (block : Block)

namespace MiningNetwork

def start (c : Crates) (N : Type) : MiningNetwork N := ⟨fun _ => ⟨.inMemory c,.new⟩,[]⟩

variable {N : Type} [DecidableEq N]

def serve (c : Crates) (x : MiningNetwork N) (n : N) (call : MiningCall) : Option (MiningNetwork N × MinerAnswer) :=
  ((x.nodes n).turn c call).map fun (next,answer) =>
    let mined := match answer with
      | .submitted block _ => block :: x.mined
      | _ => x.mined
    (⟨Function.update x.nodes n next,mined⟩,answer)

def turn (c : Crates) (x : MiningNetwork N) : MiningEvent N → Option (MiningNetwork N × MinerAnswer)
  | .node _ (.turn (.submitBlock _)) => none
  | .node n call => x.serve c n call
  | .deliver n block => if block ∈ x.mined then x.serve c n (.turn (.submitBlock block)) else none

end MiningNetwork

namespace MiningNetwork
open HonestMiners MinerSessions MiningSearch

variable {c : Crates} {N : Type} [DecidableEq N] {x next : MiningNetwork N} {a : MinerNetwork N} {n : N}

-- The threads of the miners are the miners of the plain network: what they have in
-- hand are its templates, and what they submit are its blocks.
structure Refines (c : Crates) (x : MiningNetwork N) (a : MinerNetwork N) : Prop where
  nodes : ∀ n, (x.nodes n).shared = a.nodes n
  hands : ∀ n (i : Nat) k, (x.nodes n).miner.controllers[i]? = some k → Prepared c (· ∈ a.templates) k
  mined : ∀ b ∈ x.mined, ∃ template ∈ a.templates, Mined c template b
  found : ∀ b ∈ a.found, b ∈ x.mined

omit [DecidableEq N] in
theorem start_refines : Refines c (start c N) (.start c N) := by
  refine ⟨fun _ => rfl,?_,nofun,nofun⟩
  intro n i k held
  simp [start,Miner.new] at held

theorem Refines.update {y : MiningNode} (refines : Refines c x a) {templates : List BlockTemplate} {mined found : List Block}
    (grown : ∀ template ∈ a.templates, template ∈ templates)
    (hands : ∀ (i : Nat) k, y.miner.controllers[i]? = some k → Prepared c (· ∈ templates) k)
    (solved : ∀ b ∈ mined, ∃ template ∈ templates, Mined c template b) (known : ∀ b ∈ found, b ∈ mined) :
    Refines c ⟨Function.update x.nodes n y,mined⟩ ⟨Function.update a.nodes n y.shared,templates,found⟩ := by
  refine ⟨?_,?_,solved,known⟩
  · intro m
    by_cases same : m = n
    · subst same
      simp only [Function.update_self]
    · simp only [Function.update_of_ne same]
      exact refines.nodes m
  · intro m i k held
    by_cases same : m = n
    · subst same
      simp only [Function.update_self] at held
      exact hands i k held
    · simp only [Function.update_of_ne same] at held
      exact (refines.hands m i k held).mono grown

abbrev Step (c : Crates) (N : Type) [DecidableEq N] := Runs.Run (MinerNetwork.turn (N := N) c) (fun _ _ => True)

-- A template that is made is one of the network from then on.
theorem make_runs (a : MinerNetwork N) (n : N) (values : List MempoolEntry) (now : UInt64) (minerAddress : List UInt8) :
    ∃ calls templates, Step c N a calls { a with templates } ∧ (∀ template ∈ a.templates, template ∈ templates) ∧
      ∀ template, (a.nodes n).node.createBlockTemplate c Blockchain.nextWorkBits values now minerAddress = .ok template →
        template ∈ templates := by
  cases made : (a.nodes n).node.createBlockTemplate c Blockchain.nextWorkBits values now minerAddress with
  | error text => exact ⟨[],a.templates,.nil,fun _ member => member,nofun⟩
  | ok template =>
    have ran : a.turn c (.make n values now minerAddress) =
        some ({ a with templates := template :: a.templates },.ok ()) := by
      simp only [MinerNetwork.turn,made]
    refine ⟨_,template :: a.templates,.step .nil trivial ran,fun _ => List.mem_cons_of_mem _,?_⟩
    rintro _ same
    cases same
    exact List.mem_cons_self

theorem deliver_runs {later : SharedNode} (member : template ∈ a.templates) (mined : Mined c template block)
    (ran : (a.nodes n).turn c (.submitBlock block) = some (later,answer)) :
    ∃ calls, Step c N a calls ⟨Function.update a.nodes n later,a.templates,block :: a.found⟩ := by
  obtain ⟨nonce,rfl,hit⟩ := mined
  have served : a.turn c (.deliver n template nonce) =
      some (⟨Function.update a.nodes n later,a.templates,template.mined nonce :: a.found⟩,answer) := by
    simp only [MinerNetwork.turn,MinerNetwork.serve,member,hit,ran,and_self,if_true,Option.map_some]
  exact ⟨_,.step .nil trivial served⟩

theorem turn_runs {later : SharedNode} (other : ∀ block, t ≠ .submitBlock block)
    (ran : (a.nodes n).turn c t = some (later,answer)) :
    ∃ calls, Step c N a calls ⟨Function.update a.nodes n later,a.templates,a.found⟩ := by
  have served : a.turn c (.turn n t) = some (⟨Function.update a.nodes n later,a.templates,a.found⟩,answer) := by
    cases t with
    | submitBlock block => exact absurd rfl (other block)
    | quote | enter | resetBlockchain | resetMempool => simp only [MinerNetwork.turn,MinerNetwork.serve,ran,Option.map_some]
  exact ⟨_,.step .nil trivial served⟩

theorem miner_turn {y : MiningNode} (other : ∀ i made accepted, call ≠ .controller i made accepted) :
    y.turn c (.miner call) = (y.miner.turn c call).map fun (miner,answer) => ({ y with miner },answer) := by
  cases call with
  | controller i made accepted => exact absurd rfl (other i made accepted)
  | start | startSession | stop | stopSession | worker => rfl

-- Only the thread of a session submits.
theorem moved_submits {miner later : Miner} (moved : Moved c miner call later (.submitted block accepted)) :
    ∃ i made k, call = .controller i made accepted ∧ miner.controllers[i]? = some k ∧ k.submits = some block := by
  cases moved with
  | submitted held _ submits => exact ⟨_,_,_,rfl,held,submits⟩

theorem moved_submitted {miner later : Miner} (moved : Moved c miner (.controller i made accepted) later answer)
    (held : miner.controllers[i]? = some k) (submits : k.submits = some block) : answer = .submitted block accepted := by
  cases moved with
  | controlled there _ none =>
    obtain rfl := Option.some.inj (there.symm.trans held)
    cases none.symm.trans submits
  | submitted there _ gives =>
    obtain rfl := Option.some.inj (there.symm.trans held)
    cases gives.symm.trans submits
    rfl

-- A turn that submits nothing changes no node of the plain network.
theorem Refines.quiet {y : MiningNode} (refines : Refines c x a) {templates : List BlockTemplate}
    (grown : ∀ template ∈ a.templates, template ∈ templates) (same : y.shared = (x.nodes n).shared)
    (hands : ∀ (i : Nat) k, y.miner.controllers[i]? = some k → Prepared c (· ∈ templates) k) :
    Refines c ⟨Function.update x.nodes n y,x.mined⟩ { a with templates } := by
  have solved : ∀ b ∈ x.mined, ∃ template ∈ templates, Mined c template b := fun b member =>
    (refines.mined b member).imp fun template both => ⟨grown template both.1,both.2⟩
  have moved : Refines c ⟨Function.update x.nodes n y,x.mined⟩ ⟨Function.update a.nodes n y.shared,templates,a.found⟩ :=
    refines.update grown hands solved refines.found
  rwa [same,refines.nodes n,Function.update_eq_self] at moved

theorem serve_refines (refines : Refines c x a) (ran : x.serve c n call = some (next,answer))
    (own : ∀ block, call = .turn (.submitBlock block) → block ∈ x.mined) :
    ∃ calls a', Step c N a calls a' ∧ Refines c next a' := by
  obtain ⟨⟨y,reply⟩,went,equal⟩ := Option.map_eq_some_iff.mp ran
  cases equal
  have node := refines.nodes n
  cases call with
  | miner call =>
    by_cases own : ∃ i made accepted, call = .controller i made accepted
    · obtain ⟨i,made,accepted,rfl⟩ := own
      cases went
    have other : ∀ i made accepted, call ≠ .controller i made accepted := fun i made accepted same => own ⟨i,made,accepted,same⟩
    rw [miner_turn other] at went
    obtain ⟨⟨later,came⟩,moves,equal⟩ := Option.map_eq_some_iff.mp went
    cases equal
    have moved := turn_moved moves
    have hands := moved_prepared moved (refines.hands n) fun i template accepted same => absurd same (other i _ _)
    refine ⟨[],a,.nil,?_⟩
    cases answer with
    | submitted block accepted =>
      obtain ⟨i,made,_,same,_⟩ := moved_submits moved
      exact absurd same (other i made accepted)
    | quiet | answered => exact refines.quiet (fun _ => id) rfl hands
  | controller i values now minerAddress =>
    obtain ⟨calls,templates,makes,grown,made⟩ := make_runs (c := c) a n values now minerAddress
    have prepared : ∀ (i : Nat) k, (x.nodes n).miner.controllers[i]? = some k → Prepared c (· ∈ templates) k :=
      fun i k held => (refines.hands n i k held).mono grown
    simp only [MiningNode.turn,node] at went
    split at went <;> rename_i submits
    · obtain ⟨⟨later,came⟩,moves,equal⟩ := Option.map_eq_some_iff.mp went
      cases equal
      have moved := turn_moved moves
      have hands := moved_prepared moved prepared fun i template accepted same => made template (MinerCall.controller.inj same).2.1
      refine ⟨calls,_,makes,?_⟩
      cases came with
      | submitted block accepted =>
        obtain ⟨_,_,k,same,held,gives⟩ := moved_submits moved
        cases same
        rw [held,Option.bind_some,gives] at submits
        cases submits
      | quiet | answered => exact refines.quiet grown node.symm hands
    · rename_i block
      obtain ⟨⟨shared,accepted⟩,served,went⟩ := Option.bind_eq_some_iff.mp went
      obtain ⟨⟨later,came⟩,moves,equal⟩ := Option.map_eq_some_iff.mp went
      cases equal
      obtain ⟨k,held,gives⟩ := Option.bind_eq_some_iff.mp submits
      have moved := turn_moved moves
      have hands := moved_prepared moved prepared fun i template accepted same => made template (MinerCall.controller.inj same).2.1
      obtain rfl := moved_submitted moved held gives
      obtain ⟨template,member,mined⟩ : ∃ template ∈ templates, Mined c template block := by
        unfold Controller.submits at gives
        split at gives <;> cases gives
        exact (prepared i k held).submitting ‹_›
      obtain ⟨calls',delivers⟩ := deliver_runs (a := { a with templates }) member mined served
      refine ⟨_,_,makes.trans delivers,refines.update grown hands ?_ ?_⟩
      · intro b known
        rcases List.mem_cons.mp known with rfl | old
        · exact ⟨template,member,mined⟩
        · exact (refines.mined b old).imp fun template both => ⟨grown template both.1,both.2⟩
      · intro b known
        rcases List.mem_cons.mp known with rfl | old
        · exact List.mem_cons_self
        · exact List.mem_cons_of_mem _ (refines.found b old)
  | turn t =>
    obtain ⟨⟨later,answer⟩,turned,equal⟩ := Option.map_eq_some_iff.mp went
    cases equal
    rw [node] at turned
    by_cases submits : ∃ block, t = .submitBlock block
    · obtain ⟨block,rfl⟩ := submits
      obtain ⟨template,member,mined⟩ := refines.mined block (own block rfl)
      obtain ⟨calls,path⟩ := deliver_runs member mined turned
      refine ⟨calls,_,path,refines.update (fun _ => id) (refines.hands n) refines.mined ?_⟩
      intro b known
      rcases List.mem_cons.mp known with rfl | old
      · exact own b rfl
      · exact refines.found b old
    · obtain ⟨calls,path⟩ := turn_runs (fun block same => submits ⟨block,same⟩) turned
      exact ⟨calls,_,path,refines.update (fun _ => id) (refines.hands n) refines.mined refines.found⟩

theorem turn_refines (refines : Refines c x a) (ran : x.turn c event = some (next,answer)) :
    ∃ calls a', Step c N a calls a' ∧ Refines c next a' := by
  cases event with
  | node n call =>
    by_cases submits : ∃ block, call = .turn (.submitBlock block)
    · obtain ⟨block,rfl⟩ := submits
      cases ran
    have served : x.turn c (.node n call) = x.serve c n call := by
      cases call with
      | miner | controller => rfl
      | turn t =>
        cases t with
        | submitBlock block => exact absurd ⟨block,rfl⟩ submits
        | quote | enter | resetBlockchain | resetMempool => rfl
    exact serve_refines refines (served ▸ ran) fun block same => absurd ⟨block,same⟩ submits
  | deliver n block =>
    unfold turn at ran
    dsimp only at ran
    split at ran
    · rename_i known
      refine serve_refines refines ran ?_
      intro b same
      cases same
      exact known
    · cases ran

abbrev Ran (c : Crates) (N : Type) [DecidableEq N] := Runs.Run (turn (N := N) c) (fun _ _ => True) (start c N)

-- Every run of the threads is a run of the plain network.
theorem threads_refine (path : Ran c N calls x) : ∃ calls' a, HonestMiners.Ran c N calls' a ∧ Refines c x a :=
  Runs.run_simulated start_refines (fun refines _ ran => turn_refines refines ran) path

-- So the chain of every node is a chain of mined blocks: each has the work that its
-- bits promise, and the bits keep to the difficulty rule.
theorem threads_difficulty (path : Ran c N calls x) (apart : HonestMiners.Apart c x.mined) (n : N) :
    (x.nodes n).shared.node.blockchain.bestChain.IsChain (Follows c (x.nodes n).shared.node.blockchain) := by
  obtain ⟨calls',a,plain,refines⟩ := threads_refine path
  have wide : ∀ {b}, b ∈ genesis c :: a.found → b ∈ genesis c :: x.mined := by
    intro b known
    rcases List.mem_cons.mp known with rfl | old
    · exact List.mem_cons_self
    · exact List.mem_cons_of_mem _ (refines.found b old)
  rw [refines.nodes n]
  exact honest_difficulty plain (fun a known b known' => apart a (wide known) b (wide known')) n

-- The empty block that a node's one worker finds on genesis, on its way to another.
def foundBlock : Block :=
  minedBlock genesisState.genesisHash 1 [createCoinbaseTransaction 1 10000000000 [7]] 0x1100ffff 0

def foundEvents : List (MiningEvent Bool) :=
  let control : MiningEvent Bool := .node false (.controller 0 [] 0 [7])
  [.node false (.miner (.start ⟨1,true⟩)),.node false (.miner (.startSession ⟨1,true⟩)),control,control,control] ++
    List.replicate 7 (.node false (.miner (.worker 0 0))) ++ List.replicate 8 control ++ [.deliver true foundBlock]

theorem threads_difficulty_pair : ∃ calls x, Ran reference Bool calls x ∧
    (x.nodes true).shared.node.blockchain.bestChain.length = 2 ∧
    (x.nodes true).shared.node.blockchain.bestChain.IsChain (Follows reference (x.nodes true).shared.node.blockchain) := by
  have fed : (Runs.feed (turn (N := Bool) reference) (start reference Bool) foundEvents).map (fun pair =>
      decide (pair.1.mined = [foundBlock] ∧ (pair.1.nodes true).shared.node.blockchain.bestChain.length = 2)) = some true := by
    decide +kernel
  obtain ⟨⟨x,answers⟩,ran,equal⟩ := Option.map_eq_some_iff.mp fed
  obtain ⟨mined,length⟩ := of_decide_eq_true equal
  have apart : HonestMiners.Apart reference x.mined := by
    have all : ∀ a ∈ [genesis reference,foundBlock], ∀ b ∈ [genesis reference,foundBlock],
        a.hash reference = b.hash reference → a.header = b.header := by decide +kernel
    rw [HonestMiners.Apart,mined]
    exact all
  exact ⟨_,x,(Runs.feed_run ran).1,length,threads_difficulty (Runs.feed_run ran).1 apart true⟩

end MiningNetwork

end BlindEye
