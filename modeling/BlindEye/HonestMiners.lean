import BlindEye.DifficultyLaw
import BlindEye.DifficultyRule
import BlindEye.MiningSearch
import BlindEye.SharedTurns
import BlindEye.TemplateAcceptance

namespace BlindEye

-- Nodes whose miners run the program, the templates that these work on, and the blocks
-- that have come of them. A block that solves a template travels to any node at any
-- time, as often as it likes or not at all.
structure MinerNetwork (N : Type) where
  nodes : N → SharedNode
  templates : List BlockTemplate
  found : List Block

inductive MinerEvent (N : Type) where
  | make (node : N) (values : List MempoolEntry) (now : UInt64) (minerAddress : List UInt8)
  | deliver (node : N) (template : BlockTemplate) (nonce : UInt64)
  | turn (node : N) (t : Turn)

namespace MinerNetwork

def start (c : Crates) (N : Type) : MinerNetwork N := ⟨fun _ => .inMemory c,[],[]⟩

variable {N : Type} [DecidableEq N]

def serve (c : Crates) (x : MinerNetwork N) (node : N) (t : Turn) : Option (MinerNetwork N × Answer) :=
  ((x.nodes node).turn c t).map fun (next,answer) => ({ x with nodes := Function.update x.nodes node next },answer)

-- Nobody but the miners makes a block.
def turn (c : Crates) (x : MinerNetwork N) : MinerEvent N → Option (MinerNetwork N × Answer)
  | .make node values now minerAddress =>
    match (x.nodes node).node.createBlockTemplate c Blockchain.nextWorkBits values now minerAddress with
    | .error text => some (x,.error text)
    | .ok template => some ({ x with templates := template :: x.templates },.ok ())
  | .deliver node template nonce =>
    if template ∈ x.templates ∧ template.hits c nonce then
      { x with found := template.mined nonce :: x.found }.serve c node (.submitBlock (template.mined nonce))
    else none
  | .turn node t =>
    match t with
    | .submitBlock _ => none
    | t => x.serve c node t

end MinerNetwork

namespace HonestMiners
open AddBlock BlindHash ChainState DifficultyLaw MiningSearch SharedTurns

variable {c : Crates} {N : Type} {x next : MinerNetwork N} {block parent : Block} {template : BlockTemplate}

def genesis (c : Crates) : Block := Blockchain.createGenesisBlock c

-- A block of a miner and the block it is built on.
structure Built (c : Crates) (parent block : Block) : Prop where
  names : block.header.previousBlockHash = parent.hash c
  height : block.header.height = parent.header.height + 1
  later : parent.header.timestamp ≤ block.header.timestamp
  worked : block.hashValue c ≤ targetFromBits block.header.bits
  stepped : Stepped (targetFromBits parent.header.bits).toNat (targetFromBits block.header.bits).toNat

theorem template_built {node : Node} (reached : Reachable c node.blockchain)
    (made : node.createBlockTemplate c Blockchain.nextWorkBits values now miner = .ok template) :
    ∃ parent, Tip node.blockchain parent ∧ ∀ block, Mined c template block → Built c parent block := by
  have valid := reached_valid reached
  obtain ⟨k,last,branch,stored,height⟩ := valid.tip
  obtain ⟨tip,_,_,steers⟩ := steered valid
  obtain rfl := Tip.unique steers.toTip ⟨k,branch.last,stored⟩
  unfold Node.createBlockTemplate at made
  simp only [branch.last,stored] at made
  cases made
  refine ⟨tip,steers.toTip,?_⟩
  rintro _ ⟨nonce,rfl,hit⟩
  refine ⟨?_,?_,?_,of_decide_eq_true hit,steers.stepped _⟩
  · exact (valid.keyed k tip stored).symm
  · change node.blockchain.currentHeight + 1 = _
    rw [height]
  · exact TemplateAcceptance.max_later _ _

-- The rule that `add_block` does not check: the program's own templates keep it, next
-- to the block they are built on. Only a target of 0 has no double to stay below.
theorem template_ruled {node : Node} (reached : Reachable c node.blockchain)
    (made : node.createBlockTemplate c Blockchain.nextWorkBits values now miner = .ok template) :
    ∃ parent, Tip node.blockchain parent ∧ ∀ block, Mined c template block →
      node.blockchain.getBlock block.header.previousBlockHash = some parent ∧
      DifficultyRule.target block ≤ max 1 (2 * DifficultyRule.target parent) := by
  obtain ⟨parent,tip,built⟩ := template_built reached made
  obtain ⟨k,_,stored⟩ := tip.last
  refine ⟨parent,tip,fun block mined => ⟨?_,(built block mined).stepped.eased⟩⟩
  rw [(built block mined).names,(reached_valid reached).keyed k parent stored]
  exact stored

-- What holds in a network whose blocks are all found by its miners.
structure Honest (c : Crates) (x : MinerNetwork N) : Prop where
  chains : ∀ n, Reachable c (x.nodes n).node.blockchain
  stored : ∀ n k b, (x.nodes n).node.blockchain.getBlock k = some b → b ∈ genesis c :: x.found
  solved : ∀ b ∈ x.found, ∃ template ∈ x.templates, Mined c template b
  built : ∀ template ∈ x.templates, ∃ parent ∈ genesis c :: x.found, ∀ block, Mined c template block → Built c parent block

theorem start_honest : Honest c (.start c N) := by
  refine ⟨fun _ => new_reached c,?_,nofun,nofun⟩
  intro _ k b found
  have found : (Blockchain.new c).getBlock k = some b := found
  rw [getBlock_new] at found
  split at found
  · exact List.mem_singleton.mpr (Option.some.inj found).symm
  · cases found

-- The blocks of a node after a section of one of its callers.
theorem turned_blocks {y later : SharedNode} (turned : Turned c y t later answer)
    (found : later.node.blockchain.getBlock k = some b) :
    y.node.blockchain.getBlock k = some b ∨ b = genesis c ∨ t = .submitBlock b := by
  have added : ∀ {block chain text}, Step c y.node.blockchain block chain text → chain.getBlock k = some b →
      y.node.blockchain.getBlock k = some b ∨ b = genesis c ∨ Turn.submitBlock block = .submitBlock b := by
    intro block chain text step found
    rcases step_stored step found with old | ⟨_,_,rfl⟩
    · exact .inl old
    · exact .inr (.inr rfl)
  cases turned with
  | quoteRefused | quoted | enterRefused | entered | resetMempool => exact .inl found
  | blockRefused step | blockTip step | blockKept step => exact added step found
  | resetBlockchain =>
    have found : (Blockchain.new c).getBlock k = some b := found
    rw [getBlock_new] at found
    split at found
    · exact .inr (.inl (Option.some.inj found).symm)
    · cases found

theorem make_honest (honest : Honest c x) (made : (x.nodes n).node.createBlockTemplate c Blockchain.nextWorkBits
    values now miner = .ok template) : Honest c { x with templates := template :: x.templates } := by
  refine ⟨honest.chains,honest.stored,?_,?_⟩
  · intro b member
    obtain ⟨old,known,mined⟩ := honest.solved b member
    exact ⟨old,List.mem_cons_of_mem _ known,mined⟩
  · intro one member
    rcases List.mem_cons.mp member with rfl | old
    · obtain ⟨parent,tip,built⟩ := template_built (honest.chains n) made
      obtain ⟨k,_,stored⟩ := tip.last
      exact ⟨parent,honest.stored n k parent stored,built⟩
    · exact honest.built one old

theorem found_honest (honest : Honest c x) (member : template ∈ x.templates) (mined : Mined c template block) :
    Honest c { x with found := block :: x.found } := by
  have wider : ∀ {b}, b ∈ genesis c :: x.found → b ∈ genesis c :: block :: x.found := by
    intro b known
    rcases List.mem_cons.mp known with rfl | old
    · exact List.mem_cons_self
    · exact List.mem_cons_of_mem _ (List.mem_cons_of_mem _ old)
  refine ⟨honest.chains,fun n k b stored => wider (honest.stored n k b stored),?_,?_⟩
  · intro b known
    rcases List.mem_cons.mp known with rfl | old
    · exact ⟨template,member,mined⟩
    · exact honest.solved b old
  · intro one known
    obtain ⟨parent,old,built⟩ := honest.built one known
    exact ⟨parent,wider old,built⟩

variable [DecidableEq N]

theorem serve_honest {t : Turn} (honest : Honest c x) (served : x.serve c node t = some (next,answer))
    (known : ∀ b, t = .submitBlock b → b ∈ x.found) : Honest c next := by
  obtain ⟨⟨later,reply⟩,ran,equal⟩ := Option.map_eq_some_iff.mp served
  cases equal
  have turned := turn_sound ran
  refine ⟨?_,?_,honest.solved,honest.built⟩
  · intro n
    by_cases same : n = node
    · subst same
      change Reachable c (Function.update x.nodes n later n).node.blockchain
      rw [Function.update_self]
      exact turned_chain (honest.chains n) turned
    · change Reachable c (Function.update x.nodes node later n).node.blockchain
      rw [Function.update_of_ne same]
      exact honest.chains n
  · intro n k b found
    by_cases same : n = node
    · subst same
      change (Function.update x.nodes n later n).node.blockchain.getBlock k = some b at found
      rw [Function.update_self] at found
      rcases turned_blocks turned found with old | rfl | submitted
      · exact honest.stored n k b old
      · exact List.mem_cons_self
      · exact List.mem_cons_of_mem _ (known b submitted)
    · change (Function.update x.nodes node later n).node.blockchain.getBlock k = some b at found
      rw [Function.update_of_ne same] at found
      exact honest.stored n k b found

theorem turn_honest (honest : Honest c x) (ran : x.turn c event = some (next,answer)) : Honest c next := by
  cases event with
  | make node values now minerAddress =>
    unfold MinerNetwork.turn at ran
    dsimp only at ran
    split at ran
    · cases ran
      exact honest
    · rename_i made
      cases ran
      exact make_honest honest made
  | deliver node template nonce =>
    unfold MinerNetwork.turn at ran
    dsimp only at ran
    split at ran
    · rename_i solved
      refine serve_honest (found_honest honest solved.1 ⟨nonce,rfl,solved.2⟩) ran ?_
      intro b same
      cases same
      exact List.mem_cons_self
    · cases ran
  | turn node t =>
    unfold MinerNetwork.turn at ran
    cases t with
    | submitBlock => cases ran
    | quote | enter | resetBlockchain | resetMempool => exact serve_honest honest ran nofun

abbrev Ran (c : Crates) (N : Type) [DecidableEq N] :=
  Runs.Run (MinerNetwork.turn (N := N) c) (fun _ _ => True) (.start c N)

theorem run_honest (path : Ran c N calls x) : Honest c x :=
  Runs.run_invariant start_honest (fun honest _ ran => turn_honest honest ran) path

-- No two headers that the network has seen have one hash.
def Apart (c : Crates) (found : List Block) : Prop :=
  ∀ a ∈ genesis c :: found, ∀ b ∈ genesis c :: found, a.hash c = b.hash c → a.header = b.header

-- Two blocks of a node, the later one built on the earlier one by the program's rule.
def Follows (c : Crates) (s : Blockchain) (earlier later : Digest) : Prop :=
  ∃ a b, s.getBlock earlier = some a ∧ s.getBlock later = some b ∧ Built c a b

-- Whatever the miners find and however it spreads, every step along every node's
-- chain has the work it promises and keeps to the difficulty rule, though no node
-- checks either.
theorem honest_difficulty (path : Ran c N calls x) (apart : Apart c x.found) (n : N) :
    (x.nodes n).node.blockchain.bestChain.IsChain (Follows c (x.nodes n).node.blockchain) := by
  have honest := run_honest path
  have valid := reached_valid (honest.chains n)
  obtain ⟨tip,last,branch,_,_⟩ := valid.tip
  refine List.IsChain.imp_of_mem_imp ?_ (ParentWalk.Walk.links branch)
  rintro earlier later before _ ⟨link,notRoot⟩
  obtain ⟨b,stored,names⟩ := Option.map_eq_some_iff.mp link
  obtain ⟨a,held⟩ := branch_stored branch earlier before
  refine ⟨a,b,held,stored,?_⟩
  have notGenesis : b ≠ genesis c := by
    rintro rfl
    exact notRoot ((valid.keyed later _ stored).symm.trans valid.rooted.symm)
  obtain ⟨template,made,mined⟩ := honest.solved b ((List.mem_cons.mp (honest.stored n later b stored)).resolve_left notGenesis)
  obtain ⟨parent,known,all⟩ := honest.built template made
  have built := all b mined
  -- The stored parent and the miner's are two blocks under one hash.
  have same : a.header = parent.header := by
    apply apart a (honest.stored n earlier a held) parent known
    rw [valid.keyed earlier a held,← built.names,names]
  refine ⟨?_,?_,?_,built.worked,?_⟩
  · rw [valid.keyed earlier a held,names]
  · rw [same]
    exact built.height
  · rw [same]
    exact built.later
  · rw [same]
    exact built.stepped

end HonestMiners

end BlindEye
