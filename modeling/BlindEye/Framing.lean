import BlindEye.BincodeFormat
import BlindEye.DifficultyRule
import BlindEye.Reference

namespace BlindEye.Framing
open P2p

variable {bincode : Bincode} {msg : PeerMessage} {messages : List PeerMessage} {frames : List (List UInt8)}
  {serialized rest frame : List UInt8}

def lengthBytes (serialized : List UInt8) : List UInt8 := (u32Bytes (UInt32.ofNat serialized.length)).reverse

-- Deserializing undoes serializing, and a cut-off spelling is not taken for the
-- message.
structure Undoes (bincode : Bincode) (msg : PeerMessage) : Prop where
  whole : ∀ bytes, bincode.serialize msg = .ok bytes → bincode.deserialize bytes = .ok msg
  cut : ∀ bytes, bincode.serialize msg = .ok bytes → ∀ n < bytes.length, bincode.deserialize (bytes.take n) ≠ .ok msg

def WithinLimit (bincode : Bincode) (msg : PeerMessage) : Prop :=
  ∀ bytes, bincode.serialize msg = .ok bytes → bytes.length ≤ 10000000

abbrev Sent (bincode : Bincode) (messages : List PeerMessage) (frames : List (List UInt8)) : Prop :=
  List.Forall₂ (fun msg frame => writeMessage bincode msg = .ok frame) messages frames

theorem writeMessage_exact : writeMessage bincode msg = .ok frame ↔
    ∃ bytes, bincode.serialize msg = .ok bytes ∧ frame = lengthBytes bytes ++ bytes := by
  unfold writeMessage
  cases bincode.serialize msg with
  | error e => simp
  | ok bytes =>
    rw [Except.ok.injEq]
    constructor
    · intro equal; exact ⟨bytes,rfl,equal.symm⟩
    · intro found
      obtain ⟨_,same,equal⟩ := found
      cases same
      exact equal.symm

theorem lengthBytes_length : (lengthBytes serialized).length = 4 := by simp [lengthBytes]

-- The reader's number is the length as far as it fits into a u32.
theorem lengthBytes_value : LittleEndian.fromBytes (lengthBytes serialized).reverse = serialized.length % 2^32 := by
  unfold lengthBytes u32Bytes
  rw [List.reverse_reverse,UInt32.toNat_ofNat']
  exact LittleEndian.fromBytes_toBytes (Nat.mod_lt _ (by decide))

theorem readMessage_frame : readMessage bincode (lengthBytes serialized ++ serialized ++ rest) =
    if serialized.length % 2^32 > 10000000 then (.error .invalidMessage,serialized ++ rest)
    else ((bincode.deserialize (serialized.take (serialized.length % 2^32))).mapError P2pError.serialization,
      serialized.drop (serialized.length % 2^32) ++ rest) := by
  have fits := Nat.mod_le serialized.length (2^32)
  have front : (lengthBytes serialized ++ serialized ++ rest).take 4 = lengthBytes serialized := by
    rw [List.append_assoc]
    exact List.take_left' lengthBytes_length
  have back : (lengthBytes serialized ++ serialized ++ rest).drop 4 = serialized ++ rest := by
    rw [List.append_assoc]
    exact List.drop_left' lengthBytes_length
  have long : ¬ (lengthBytes serialized ++ serialized ++ rest).length < 4 := by
    rw [List.length_append,List.length_append,lengthBytes_length]
    omega
  have enough : ¬ (serialized ++ rest).length < serialized.length % 2^32 := by
    rw [List.length_append]
    omega
  unfold readMessage
  simp only [if_neg long,front,back,lengthBytes_value,if_neg enough,List.take_append_of_le_length fits,
    List.drop_append_of_le_length fits]
  cases bincode.deserialize (serialized.take (serialized.length % 2^32)) with
  | error e => rfl
  | ok msg => rfl

theorem readMessage_small (undoes : Undoes bincode msg) (ok : bincode.serialize msg = .ok serialized)
    (small : serialized.length ≤ 10000000) :
    readMessage bincode (lengthBytes serialized ++ serialized ++ rest) = (.ok msg,rest) := by
  have whole : serialized.length % 2^32 = serialized.length := Nat.mod_eq_of_lt (by omega)
  rw [readMessage_frame,whole,if_neg (by omega),List.take_length,List.drop_length,undoes.whole _ ok]
  rfl

theorem readMessage_large (undoes : Undoes bincode msg) (ok : bincode.serialize msg = .ok serialized)
    (large : 10000000 < serialized.length) :
    (readMessage bincode (lengthBytes serialized ++ serialized ++ rest)).1 ≠ .ok msg := by
  rw [readMessage_frame]
  split
  · intro equal; cases equal
  · rename_i inside
    have cut := undoes.cut _ ok (serialized.length % 2^32) (by omega)
    intro equal
    cases read : bincode.deserialize (serialized.take (serialized.length % 2^32)) with
    | error e =>
      rw [read] at equal
      cases equal
    | ok other =>
      rw [read] at equal
      cases equal
      exact cut read

theorem readMessages_cons : readMessages bincode (count + 1) stream = (.ok (msg :: messages),rest) ↔
    ∃ middle, readMessage bincode stream = (.ok msg,middle) ∧
      readMessages bincode count middle = (.ok messages,rest) := by
  rw [readMessages]
  cases first : readMessage bincode stream with
  | mk answer middle =>
    cases answer with
    | error e => simp
    | ok other =>
      cases later : readMessages bincode count middle with
      | mk answer last =>
        cases answer with
        | error e => simp [later]
        | ok others => simp [later,and_assoc]

theorem framing_exact (sent : Sent bincode messages frames) (undoes : ∀ msg ∈ messages, Undoes bincode msg)
    (rest : List UInt8) : readMessages bincode messages.length (frames.flatten ++ rest) = (.ok messages,rest) ↔
      ∀ msg ∈ messages, WithinLimit bincode msg := by
  induction sent with
  | nil => exact ⟨fun _ _ member => absurd member List.not_mem_nil,fun _ => rfl⟩
  | @cons msg frame messages frames wrote sent ih =>
    obtain ⟨serialized,ok,rfl⟩ := writeMessage_exact.mp wrote
    have here := undoes msg List.mem_cons_self
    have later := ih fun other member => undoes other (List.mem_cons_of_mem _ member)
    rw [List.flatten_cons,List.append_assoc,List.length_cons,readMessages_cons,List.forall_mem_cons]
    constructor
    · intro whole
      obtain ⟨middle,first,others⟩ := whole
      have small : serialized.length ≤ 10000000 := by
        by_contra large
        apply readMessage_large here ok (Nat.not_le.mp large)
        rw [first]
      rw [readMessage_small here ok small] at first
      cases first
      refine ⟨?_,later.mp others⟩
      intro bytes same
      rw [ok] at same
      cases same
      exact small
    · intro limits
      obtain ⟨first,others⟩ := limits
      exact ⟨_,readMessage_small here ok (first _ ok),later.mpr others⟩

-- The format of bincode on a message whose lists have lengths that a usize holds.
theorem bincode_undoes (fits : BincodeFormat.peerMessage.Fits msg) : Undoes BincodeFormat.bincode msg := by
  constructor
  · intro bytes ok
    cases ok
    have read := BincodeFormat.peerMessage.roundtrip msg [] fits
    rw [List.append_nil] at read
    simp only [BincodeFormat.bincode,read]
  · intro bytes ok n short read
    cases ok
    simp only [BincodeFormat.bincode] at read
    split at read
    · rename_i other left found
      cases read
      have length := BincodeFormat.peerMessage.shorter_differs _ _ _ found
      rw [List.length_take] at length
      omega
    · cases read

-- What `GetHeaders` answers on a fresh node.
def headersReply : List PeerMessage := [.block (Blockchain.createGenesisBlock reference),.ping 0]

theorem headersReply_fits : ∀ msg ∈ headersReply, BincodeFormat.peerMessage.Fits msg := by
  have genesis : BincodeFormat.Addressable Blockchain.genesisTx := ⟨by decide,by decide,by decide,by decide⟩
  have only : (Blockchain.createGenesisBlock reference).transactions = [Blockchain.genesisTx] := rfl
  have block : BincodeFormat.block.Fits (Blockchain.createGenesisBlock reference) := by
    apply BincodeFormat.block_fits
    · rw [only]
      decide
    · intro tx inside
      rw [only] at inside
      obtain rfl := List.mem_singleton.mp inside
      exact genesis
  intro msg member
  rcases List.mem_cons.mp member with rfl | last
  · exact block
  · obtain rfl := List.mem_singleton.mp last
    exact BincodeFormat.u64_fits 0

theorem framing_exact_headers : ∃ frames, Sent BincodeFormat.bincode headersReply frames ∧
    readMessages BincodeFormat.bincode 2 frames.flatten = (.ok headersReply,[]) := by
  have written : ∀ msg, writeMessage BincodeFormat.bincode msg =
      .ok (lengthBytes (BincodeFormat.peerMessage.write msg) ++ BincodeFormat.peerMessage.write msg) := fun _ => rfl
  have sent : Sent BincodeFormat.bincode headersReply _ := .cons (written _) (.cons (written _) .nil)
  have lengths : ∀ msg ∈ headersReply, (BincodeFormat.peerMessage.write msg).length ≤ 10000000 := by decide +kernel
  have small : ∀ msg ∈ headersReply, WithinLimit BincodeFormat.bincode msg := by
    intro msg member bytes ok
    cases ok
    exact lengths msg member
  have read := (framing_exact sent (fun msg member => bincode_undoes (headersReply_fits msg member)) []).mpr small
  rw [List.append_nil] at read
  exact ⟨_,sent,read⟩

def bulkBlock (c : Crates) (parent : Block) (script : List UInt8) : Block :=
  DifficultyRule.childOf c parent [createCoinbaseTransaction 1 1 script] 0

-- Nothing in `add_block` looks at the size of a script.
theorem bulkBlock_accepted (reached : ChainState.Reachable c s) : ∃ tip parent, s.getBlock tip = some parent ∧
    (1 ≤ Emission.subsidy (parent.header.height + 1) → ∀ script, (bulkBlock c parent script).hash c ∉ s.blocks →
      ∃ next, s.addBlock c (bulkBlock c parent script) = some (next,.ok ())) := by
  have valid := ChainState.reached_valid reached
  obtain ⟨tip,parent,branch,stored,_⟩ := valid.tip
  have extendable : DifficultyRule.Extendable c s tip :=
    ⟨s.bestChain,s.utxoSet,AddBlock.path_branch.mpr branch,valid.replay⟩
  refine ⟨tip,parent,stored,fun paid script fresh => ?_⟩
  apply DifficultyRule.childOf_accepted valid stored (List.cons_ne_nil _ _) fresh extendable
  intro ledger
  have total : (createCoinbaseTransaction 1 1 script).totalOutputValue = 1 := by
    simp [createCoinbaseTransaction,Transaction.new,Transaction.totalOutputValue]
  refine ⟨_,LedgerRules.minted_applies c _ ledger rfl ?_ ?_⟩
  · apply (Transaction.validate_exact _).mpr
    refine ⟨List.cons_ne_nil _ _,List.nodup_nil,?_⟩
    intro output member
    obtain rfl := List.mem_singleton.mp member
    show (1 : UInt64) ≠ 0
    decide
  · rw [total]
    exact paid

theorem bulkBlock_length (c : Crates) (parent : Block) (script : List UInt8) :
    (BincodeFormat.peerMessage.write (.block (bulkBlock c parent script))).length = 148 + script.length := by
  have minted : (BincodeFormat.transaction.write (createCoinbaseTransaction 1 1 script)).length = 44 + script.length := by
    simp [BincodeFormat.transaction,createCoinbaseTransaction,Transaction.new]
    omega
  have block : (BincodeFormat.block.write (bulkBlock c parent script)).length = 144 + script.length := by
    simp [BincodeFormat.block,bulkBlock,DifficultyRule.childOf,Block.withBits,minted]
    omega
  rw [BincodeFormat.blockMessage_length,block]
  omega

theorem large_refused (ok : bincode.serialize msg = .ok serialized) (large : 10000000 < serialized.length)
    (below : serialized.length < 2^32) : ∃ frame, writeMessage bincode msg = .ok frame ∧
      readMessages bincode 1 frame = (.error .invalidMessage,serialized) := by
  refine ⟨_,writeMessage_exact.mpr ⟨serialized,ok,rfl⟩,?_⟩
  have read : readMessage bincode (lengthBytes serialized ++ serialized ++ []) =
      (.error .invalidMessage,serialized ++ []) := by
    rw [readMessage_frame,Nat.mod_eq_of_lt below,if_pos large]
  rw [List.append_nil,List.append_nil] at read
  rw [readMessages,read]

def oversizedBlock : Block :=
  bulkBlock reference (Blockchain.createGenesisBlock reference) (List.replicate 10000000 0)

-- A fresh node accepts this block unless its hash is the genesis block's, and
-- sends it as a message that no node reads.
theorem oversizedBlock_unreadable :
    (oversizedBlock.hash reference ∉ genesisState.blocks →
      ∃ next, genesisState.addBlock reference oversizedBlock = some (next,.ok ())) ∧
    ∃ frame rest, writeMessage BincodeFormat.bincode (.block oversizedBlock) = .ok frame ∧
      readMessages BincodeFormat.bincode 1 frame = (.error .invalidMessage,rest) := by
  obtain ⟨tip,parent,stored,accepts⟩ := bulkBlock_accepted (ChainState.new_reached reference)
  have genesis : parent = Blockchain.createGenesisBlock reference := by
    rw [ChainState.getBlock_new] at stored
    split at stored
    · cases stored; rfl
    · cases stored
  subst genesis
  have length := bulkBlock_length reference (Blockchain.createGenesisBlock reference) (List.replicate 10000000 0)
  rw [List.length_replicate] at length
  have written : BincodeFormat.bincode.serialize (.block oversizedBlock) =
      .ok (BincodeFormat.peerMessage.write (.block oversizedBlock)) := rfl
  obtain ⟨frame,wrote,read⟩ := large_refused written (by rw [oversizedBlock,length]; decide)
    (by rw [oversizedBlock,length]; decide)
  exact ⟨accepts (by decide) _,frame,_,wrote,read⟩

end BlindEye.Framing
