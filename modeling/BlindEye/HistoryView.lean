import BlindEye.Reconciliation

namespace BlindEye

-- `str::is_char_boundary`: the ends, and the first byte of every character.
def isCharBoundary (value : String) (index : Nat) : Bool :=
  decide (index = 0) || match (utf8Bytes value)[index]? with
    | none => decide (index = (utf8Bytes value).length)
    | some byte => decide byte.IsUTF8FirstByte

-- `&value[..index]` and `&value[index..]`. `none` is the panic off a boundary.
def sliceTo (value : String) (index : Nat) : Option String :=
  if isCharBoundary value index then String.fromUTF8? ⟨((utf8Bytes value).take index).toArray⟩ else none

def sliceFrom (value : String) (index : Nat) : Option String :=
  if isCharBoundary value index then String.fromUTF8? ⟨((utf8Bytes value).drop index).toArray⟩ else none

def shortenMiddle (value : String) (edge : Nat) : Option String :=
  let len := (utf8Bytes value).length
  if len ≤ edge * 2 + 3 then some value
  else do
    let front ← sliceTo value edge
    let back ← sliceFrom value (len - edge)
    some (front ++ "..." ++ back)

-- The two texts of a row of the history that are shortened.
def historyRow (c : Crates) (record : WalletTransactionRecord) : Option (String × String) := do
  let counterparty ← match record.counterparty with
    | none => some "n/a"
    | some value => shortenMiddle value 10
  let txid ← shortenMiddle (c.hexEncode record.txid.bytes) 10
  some (counterparty,txid)

namespace HistoryView
open AddBlock Blockchain ChainState CoinHistory Reconciliation

variable {c : Crates} {s : Blockchain} {tx : Transaction} {script : List UInt8} {header : BlockHeader}
  {known : KnownOutputs} {records : List WalletTransactionRecord} {value : String}

theorem utf8Bytes_append (front back : String) : utf8Bytes (front ++ back) = utf8Bytes front ++ utf8Bytes back := by
  simp [utf8Bytes]

theorem utf8Bytes_length (value : String) : (utf8Bytes value).length = value.utf8ByteSize := by
  simp [utf8Bytes]

theorem byte_at (inside : (⟨index⟩ : String.Pos.Raw) < value.rawEndPos) :
    (utf8Bytes value)[index]? = some (value.getUTF8Byte ⟨index⟩ inside) := by
  have bound : index < (utf8Bytes value).length := by
    rw [utf8Bytes_length]
    exact inside
  rw [List.getElem?_eq_getElem bound]
  rfl

theorem boundary_valid : isCharBoundary value index = true ↔ (⟨index⟩ : String.Pos.Raw).IsValid value := by
  by_cases start : index = 0
  · subst start
    exact iff_of_true rfl String.Pos.Raw.isValid_zero
  · rw [String.Pos.Raw.isValid_iff_isUTF8FirstByte]
    unfold isCharBoundary
    by_cases inside : (⟨index⟩ : String.Pos.Raw) < value.rawEndPos
    · have before : (⟨index⟩ : String.Pos.Raw) ≠ value.rawEndPos := String.Pos.Raw.ne_of_lt inside
      rw [byte_at inside]
      simp [start,before,inside]
    · have outside : (utf8Bytes value).length ≤ index := by
        rw [utf8Bytes_length]
        exact Nat.not_lt.mp inside
      rw [List.getElem?_eq_none outside,utf8Bytes_length]
      simp [start,inside,String.Pos.Raw.ext_iff]

theorem boundary_exact (value : String) (index : Nat) :
    isCharBoundary value index = true ↔ ∃ front back, value = front ++ back ∧ index = (utf8Bytes front).length := by
  rw [boundary_valid,String.Pos.Raw.isValid_iff_exists_append]
  constructor
  · intro split
    obtain ⟨front,back,joined,place⟩ := split
    refine ⟨front,back,joined,?_⟩
    rw [utf8Bytes_length]
    exact congrArg String.Pos.Raw.byteIdx place
  · intro split
    obtain ⟨front,back,joined,rfl⟩ := split
    refine ⟨front,back,joined,?_⟩
    rw [utf8Bytes_length]
    rfl

theorem sliceTo_defined : (sliceTo value index).isSome = true ↔ isCharBoundary value index = true := by
  unfold sliceTo
  constructor
  · intro defined
    by_contra outside
    rw [if_neg outside] at defined
    cases defined
  · intro boundary
    obtain ⟨front,back,joined,place⟩ := (boundary_exact value index).mp boundary
    rw [if_pos boundary,joined,utf8Bytes_append,place,List.take_left,utf8Bytes_text]
    rfl

theorem sliceFrom_defined : (sliceFrom value index).isSome = true ↔ isCharBoundary value index = true := by
  unfold sliceFrom
  constructor
  · intro defined
    by_contra outside
    rw [if_neg outside] at defined
    cases defined
  · intro boundary
    obtain ⟨front,back,joined,place⟩ := (boundary_exact value index).mp boundary
    rw [if_pos boundary,joined,utf8Bytes_append,place,List.drop_left,utf8Bytes_text]
    rfl

-- Short texts are shown whole, and longer ones are cut at two boundaries.
theorem shortenMiddle_defined (value : String) (edge : Nat) : (shortenMiddle value edge).isSome = true ↔
    (utf8Bytes value).length ≤ edge * 2 + 3 ∨
      isCharBoundary value edge = true ∧ isCharBoundary value ((utf8Bytes value).length - edge) = true := by
  unfold shortenMiddle
  by_cases short : (utf8Bytes value).length ≤ edge * 2 + 3
  · simp [short]
  · rw [← sliceTo_defined,← sliceFrom_defined]
    simp only [short,false_or]
    cases sliceTo value edge with
    | none => simp
    | some front =>
      cases sliceFrom value ((utf8Bytes value).length - edge) with
      | none => simp
      | some back => simp

-- A text of one byte per character is cut anywhere.
theorem plain_defined (plain : ∀ ch ∈ value.toList, Char.utf8Size ch = 1) (edge : Nat) :
    (shortenMiddle value edge).isSome = true := by
  have cuts : ∀ index, index ≤ value.toList.length → isCharBoundary value index = true := by
    intro index inside
    rw [boundary_exact]
    refine ⟨String.ofList (value.toList.take index),String.ofList (value.toList.drop index),?_,?_⟩
    · rw [← String.ofList_append,List.take_append_drop,String.ofList_toList]
    · rw [utf8Bytes_length,plain_size fun ch member => plain ch (List.mem_of_mem_take member),List.length_take]
      omega
  have length : (utf8Bytes value).length = value.toList.length := by
    have size := plain_size plain
    rwa [String.ofList_toList,← utf8Bytes_length] at size
  rw [shortenMiddle_defined,length]
  by_cases short : value.toList.length ≤ edge * 2 + 3
  · exact .inl short
  · exact .inr ⟨cuts _ (by omega),cuts _ (by omega)⟩

-- What the hex crate documents of its encoder.
def HexEncodes (c : Crates) : Prop := ∀ bytes, c.hexEncode bytes = String.ofList (bytes.flatMap hexDigits)

theorem hexDigits_plain (b : UInt8) : ∀ ch ∈ hexDigits b, Char.utf8Size ch = 1 := by
  have each : ∀ n < 16, (if n < 10 then Char.ofNat (48 + n) else Char.ofNat (87 + n)).utf8Size = 1 := by decide
  have byte := b.toNat_lt
  intro ch member
  rcases List.mem_pair.mp member with rfl | rfl
  · exact each _ (by omega)
  · exact each _ (by omega)

theorem hex_plain (hex : HexEncodes c) (bytes : List UInt8) : ∀ ch ∈ (c.hexEncode bytes).toList, Char.utf8Size ch = 1 := by
  rw [hex bytes,String.toList_ofList]
  intro ch member
  obtain ⟨b,_,inside⟩ := List.mem_flatMap.mp member
  exact hexDigits_plain b ch inside

-- A character of the text starts at this byte.
def StartsChar (bytes : List UInt8) (index : Nat) : Prop := ∃ byte, bytes[index]? = some byte ∧ byte.IsUTF8FirstByte

-- The script is shown in hex, or is short, or has a character start at both cuts.
def Showable (script : List UInt8) : Prop :=
  String.fromUTF8? ⟨script.toArray⟩ = none ∨ script.length ≤ 23 ∨
    StartsChar script 10 ∧ StartsChar script (script.length - 10)

theorem boundary_starts (positive : 0 < index) (inside : index < (utf8Bytes value).length) :
    isCharBoundary value index = true ↔ StartsChar (utf8Bytes value) index := by
  have nonzero : index ≠ 0 := by omega
  unfold isCharBoundary StartsChar
  rw [List.getElem?_eq_getElem inside]
  simp [nonzero]

theorem display_defined (hex : HexEncodes c) (script : List UInt8) :
    (shortenMiddle (displayScriptPubkey c script) 10).isSome = true ↔ Showable script := by
  unfold displayScriptPubkey Showable
  cases read : String.fromUTF8? ⟨script.toArray⟩ with
  | none =>
    have plain : ∀ ch ∈ ("hex:" ++ c.hexEncode script).toList, Char.utf8Size ch = 1 := by
      intro ch member
      rw [String.toList_append] at member
      rcases List.mem_append.mp member with front | back
      · have letters : ∀ ch ∈ "hex:".toList, Char.utf8Size ch = 1 := by simp [Char.utf8Size]
        exact letters ch front
      · exact hex_plain hex script ch back
    exact iff_of_true (plain_defined plain 10) (.inl rfl)
  | some text =>
    have bytes := text_utf8Bytes read
    rw [Option.getD_some,shortenMiddle_defined,bytes]
    by_cases short : script.length ≤ 23
    · simp [short]
    · rw [boundary_starts (by omega) (by rw [bytes]; omega),boundary_starts (by omega) (by rw [bytes]; omega),bytes]
      simp [short]

theorem address_defined (hex : HexEncodes c) (found : addressFromScriptSig c scriptSig = some bytes) :
    (shortenMiddle (displayScriptPubkey c bytes) 10).isSome = true := by
  obtain ⟨key,_,rfl⟩ := Option.map_eq_some_iff.mp found
  have shown : displayScriptPubkey c (utf8Bytes (addressFromPublicKey c key)) = addressFromPublicKey c key := by
    rw [displayScriptPubkey,utf8Bytes_text]
    rfl
  refine (congrArg (fun text => (shortenMiddle text 10).isSome) shown).trans (plain_defined ?_ 10)
  intro ch member
  rw [addressFromPublicKey,String.toList_append] at member
  rcases List.mem_append.mp member with front | back
  · have letters : ∀ ch ∈ "BEC".toList, Char.utf8Size ch = 1 := by simp [Char.utf8Size]
    exact letters ch front
  · exact hex_plain hex _ ch back

theorem self_defined : (shortenMiddle "Self" 10).isSome = true := by
  rw [shortenMiddle_defined,utf8Bytes_length]
  exact .inl (by decide)

theorem historyRow_defined (hex : HexEncodes c) (record : WalletTransactionRecord) :
    (historyRow c record).isSome = true ↔ ∀ value, record.counterparty = some value → (shortenMiddle value 10).isSome = true := by
  obtain ⟨txid,shown⟩ := Option.isSome_iff_exists.mp (plain_defined (hex_plain hex record.txid.bytes) 10)
  unfold historyRow
  rw [shown]
  cases record.counterparty with
  | none => simp
  | some value =>
    simp
    cases shortenMiddle value 10 with
    | none => rfl
    | some text => rfl

-- A payment out of the script's own coins to others, whose recipient is shown.
structure Outward (script : List UInt8) (known : KnownOutputs) (tx : Transaction) : Prop where
  pays : tx.inputs ≠ []
  owned : 0 < ownedInputAmount script known tx
  leaves : externalSendAmount script tx ≠ 0

def firstExternal (script : List UInt8) (tx : Transaction) : Option TxOutput :=
  (tx.outputs.filter fun output => !decide (output.scriptPubkey = script)).head?

def Presentable (script : List UInt8) (known : KnownOutputs) (tx : Transaction) : Prop :=
  Outward script known tx → ∀ output, firstExternal script tx = some output → Showable output.scriptPubkey

def Drawable (c : Crates) (records : List WalletTransactionRecord) : Prop :=
  ∀ record ∈ records, (historyRow c record).isSome = true

theorem drawable_append : Drawable c (records ++ [record]) ↔ Drawable c records ∧ (historyRow c record).isSome = true := by
  simp [Drawable,or_imp,forall_and]

-- One turn of the loop: the new row can be drawn exactly when the transaction is presentable.
theorem record_drawable (hex : HexEncodes c) :
    Drawable c (recordTransaction c script header (known,records) tx).2 ↔
      Drawable c records ∧ Presentable script known tx := by
  unfold recordTransaction
  dsimp only
  split
  · rename_i none
    have inward : Presentable script known tx := by
      intro outward
      have owned := outward.owned
      unfold ownedInputAmount at owned
      rw [none.2] at owned
      exact absurd owned (by simp)
    exact (and_iff_left inward).symm
  · rw [drawable_append,historyRow_defined hex]
    refine and_congr_right fun _ => ?_
    by_cases minted : tx.inputs = []
    · rw [if_pos (by simpa using minted)]
      exact iff_of_true (by simp) fun outward => absurd minted outward.pays
    · rw [if_neg (by simpa using minted)]
      by_cases owned : ownedInputAmount script known tx > 0
      · have coins := owned
        unfold ownedInputAmount at owned
        rw [if_pos owned]
        by_cases moved : externalSendAmount script tx = 0
        · have nothing := moved
          unfold externalSendAmount at moved
          rw [if_pos moved]
          refine iff_of_true ?_ fun outward => absurd nothing outward.leaves
          intro value same
          cases same
          exact self_defined
        · have leaves := moved
          unfold externalSendAmount at moved
          rw [if_neg moved]
          constructor
          · intro defined _ output found
            rw [← display_defined hex]
            exact defined _ (Option.map_eq_some_iff.mpr ⟨output,found,rfl⟩)
          · intro presentable value shown
            obtain ⟨output,found,rfl⟩ := Option.map_eq_some_iff.mp shown
            exact (display_defined hex _).mpr (presentable ⟨minted,coins,leaves⟩ output found)
      · have none := owned
        unfold ownedInputAmount at owned
        rw [if_neg owned]
        refine iff_of_true ?_ fun outward => absurd outward.owned none
        intro value shown
        obtain ⟨bytes,found,rfl⟩ := Option.map_eq_some_iff.mp shown
        obtain ⟨input,_,read⟩ := List.exists_of_findSome?_eq_some found
        exact address_defined hex read

-- The outputs that the loop knows after these transactions.
def knownAfter (c : Crates) (txs : List Transaction) : KnownOutputs :=
  txs.foldl (fun known tx => known.insert (tx.txid c) tx.outputs) ∅

-- Every payment on the best chain, against the outputs known before it.
def AllPresentable (c : Crates) (s : Blockchain) (script : List UInt8) : Prop :=
  ∀ earlier tx later, transactionsOn s s.bestChain = earlier ++ tx :: later → Presentable script (knownAfter c earlier) tx

-- The loop over `txs` after `done`: its rows can be drawn exactly when all are presentable.
structure Follows (c : Crates) (script : List UInt8) (done : List Transaction)
    (state : KnownOutputs × List WalletTransactionRecord) : Prop where
  known : state.1 = knownAfter c done
  drawn : Drawable c state.2 ↔
    ∀ earlier tx later, done = earlier ++ tx :: later → Presentable script (knownAfter c earlier) tx

theorem follows_step (hex : HexEncodes c) {done : List Transaction} {state : KnownOutputs × List WalletTransactionRecord}
    (follows : Follows c script done state) (header : BlockHeader) (tx : Transaction) :
    Follows c script (done ++ [tx]) (recordTransaction c script header state tx) := by
  obtain ⟨known,records⟩ := state
  obtain ⟨outputs,drawn⟩ := follows
  subst outputs
  constructor
  · rw [recordTransaction_known,knownAfter,knownAfter,List.foldl_append]
    rfl
  · rw [record_drawable hex,drawn]
    constructor
    · intro both earlier other later split
      rcases List.eq_nil_or_concat later with rfl | ⟨front,last,rfl⟩
      · obtain ⟨rfl,same⟩ := List.append_inj' split rfl
        cases same
        exact both.2
      · rw [List.concat_eq_append,← List.cons_append,← List.append_assoc] at split
        obtain ⟨rfl,_⟩ := List.append_inj' split rfl
        exact both.1 earlier other front rfl
    · intro all
      refine ⟨fun earlier other later split => all earlier other (later ++ [tx]) (by rw [split]; simp),?_⟩
      exact all done tx [] rfl

theorem follows_block (hex : HexEncodes c) {done : List Transaction} {state : KnownOutputs × List WalletTransactionRecord}
    (follows : Follows c script done state) (txs : List Transaction) :
    Follows c script (done ++ txs) (txs.foldl (recordTransaction c script header) state) := by
  induction txs generalizing done state with
  | nil => rwa [List.append_nil]
  | cons tx rest ih =>
    have later := ih (follows_step hex follows header tx)
    rwa [List.append_assoc] at later

theorem follows_chain (hex : HexEncodes c) (s : Blockchain) {done : List Transaction}
    {state : KnownOutputs × List WalletTransactionRecord} (follows : Follows c script done state) (chain : List Digest) :
    Follows c script (done ++ transactionsOn s chain) (chain.foldl (s.recordBlock c script) state) := by
  induction chain generalizing done state with
  | nil =>
    rw [show transactionsOn s [] = [] from rfl,List.append_nil]
    exact follows
  | cons k rest ih =>
    have split : transactionsOn s (k :: rest) =
        ((s.getBlock k).map Block.transactions).getD [] ++ transactionsOn s rest := by
      rw [transactionsOn,entriesOn,List.flatMap_cons,List.map_append]
      cases s.getBlock k with
      | none => rfl
      | some block => simp [entriesOf,transactionsOn,entriesOn,Function.comp_def]
    rw [split,← List.append_assoc]
    apply ih
    unfold recordBlock
    cases s.getBlock k with
    | none => rwa [Option.map_none,Option.getD_none,List.append_nil]
    | some block => exact follows_block hex follows block.transactions

-- Every row of the history can be drawn exactly when every payment of the wallet
-- on the best chain goes to a script that can be shown.
theorem history_drawable (hex : HexEncodes c) (s : Blockchain) (script : List UInt8) :
    (∀ record ∈ s.walletTransactionHistory c script, (historyRow c record).isSome = true) ↔ AllPresentable c s script := by
  have start : Follows c script [] ((∅,[]) : KnownOutputs × List WalletTransactionRecord) := by
    refine ⟨rfl,iff_of_true (fun _ absent => absurd absent List.not_mem_nil) ?_⟩
    intro earlier tx later split
    exact absurd split (by simp)
  have followed := follows_chain hex s start s.bestChain
  rw [List.nil_append] at followed
  unfold walletTransactionHistory AllPresentable
  rw [← followed.drawn]
  simp only [List.mem_reverse]
  rfl

-- A block that pays no script which the view cannot show.
def Shown (block : Block) : Prop := ∀ tx ∈ block.transactions, ∀ output ∈ tx.outputs, Showable output.scriptPubkey

theorem reached_shown (reached : Reached c (fun _ block => Shown block) s) (stored : s.getBlock k = some block) : Shown block := by
  obtain ⟨calls,path⟩ := reached
  refine Runs.run_invariant (motive := fun s => ∀ k block, s.getBlock k = some block → Shown block) ?_ ?_ path k block stored
  · intro k block stored
    rw [getBlock_new] at stored
    split at stored
    · cases stored
      intro tx member output paid
      cases List.mem_singleton.mp member
      cases List.mem_singleton.mp paid
      exact .inr (.inl (by decide))
    · cases stored
  · intro s given answer next held shown ran k block stored
    rcases step_stored (addBlock_sound ran) stored with old | ⟨_,_,rfl⟩
    · exact held k block old
    · exact shown

theorem shown_presentable (reached : Reached c (fun _ block => Shown block) s) (script : List UInt8) :
    AllPresentable c s script := by
  intro earlier tx later split _ output first
  have member : tx ∈ transactionsOn s s.bestChain := by
    rw [split]
    simp
  obtain ⟨k,_,block,stored,inside⟩ := mem_transactionsOn.mp member
  exact reached_shown reached stored tx inside output (List.mem_of_mem_filter (List.mem_of_mem_head? first))

theorem history_view_exact (hex : HexEncodes c) :
    (∀ value edge, (shortenMiddle value edge).isSome = true ↔ (utf8Bytes value).length ≤ edge * 2 + 3 ∨
      isCharBoundary value edge = true ∧ isCharBoundary value ((utf8Bytes value).length - edge) = true) ∧
    (∀ s, Reachable c s → ∀ script,
      (∀ record ∈ s.walletTransactionHistory c script, (historyRow c record).isSome = true) ↔ AllPresentable c s script) ∧
    (∀ s, Reached c (fun _ block => Shown block) s → ∀ script,
      ∀ record ∈ s.walletTransactionHistory c script, (historyRow c record).isSome = true) := by
  refine ⟨shortenMiddle_defined,fun s _ script => history_drawable hex s script,?_⟩
  intro s reached script
  exact (history_drawable hex s script).mpr (shown_presentable reached script)

instance : Decidable (StartsChar bytes index) :=
  decidable_of_iff ((bytes[index]?).any fun byte => decide byte.IsUTF8FirstByte) (by simp [StartsChar,Option.any_eq_true])

instance : Decidable (Showable script) :=
  inferInstanceAs (Decidable (_ ∨ _ ∨ _ ∧ _))

instance : Decidable (Shown block) :=
  inferInstanceAs (Decidable (∀ tx ∈ block.transactions, ∀ output ∈ tx.outputs, Showable output.scriptPubkey))

-- The history shows the payment of the wallet above its reward.
theorem history_view_exact_payBlock : ∃ s, Reached reference (fun _ block => Shown block) s ∧
    (s.walletTransactionHistory reference generatorAddress).map (fun record => (record.direction,record.counterparty)) =
      [(.outgoing,some "\t"),(.miningReward,none)] ∧
    (∀ record ∈ s.walletTransactionHistory reference generatorAddress, (historyRow reference record).isSome = true) ∧
    AllPresentable reference s generatorAddress := by
  have fed : (Runs.feed (fun s block => if Shown block then s.addBlock reference block else none) genesisState
      [earnBlock,payBlock]).map (fun pair => (pair.1.walletTransactionHistory reference generatorAddress).map fun record =>
        (record.direction,record.counterparty)) = some [(.outgoing,some "\t"),(.miningReward,none)] := by decide +kernel
  obtain ⟨⟨s,answers⟩,ran,listed⟩ := Option.map_eq_some_iff.mp fed
  have path := (Runs.feed_run ran).1.guarded
  obtain ⟨_,exact,shown⟩ := history_view_exact (fun _ => rfl : HexEncodes reference)
  have drawn := shown s ⟨_,path⟩ generatorAddress
  have reachable : Reachable reference s := ⟨_,path.weaken fun _ _ _ => trivial⟩
  exact ⟨s,⟨_,path⟩,listed,drawn,(exact s reachable generatorAddress).mp drawn⟩

-- One letter, then twelve of two bytes: the tenth byte is inside the fifth of them.
def accented : List UInt8 := 97 :: (List.replicate 12 [0xC3,0xA9]).flatten
def accentedPayment : Transaction := .new [⟨⟨earnedCoinbase.txid reference,0⟩,generatorKey,0⟩] [⟨10000000000,accented⟩]
def accentedBlock : Block := blockOn (earnBlock.hash reference) 2 [createCoinbaseTransaction 2 100 [2],accentedPayment]

theorem accented_crashes : ∃ s, Reachable reference s ∧
    ∃ record ∈ s.walletTransactionHistory reference generatorAddress, historyRow reference record = none := by
  have fed : (Runs.feed (Blockchain.addBlock reference) genesisState [earnBlock,accentedBlock]).map (fun run =>
      (run.1.walletTransactionHistory reference generatorAddress).any fun record => (historyRow reference record).isNone) =
      some true := by decide +kernel
  obtain ⟨⟨s,answers⟩,ran,crashes⟩ := Option.map_eq_some_iff.mp fed
  obtain ⟨record,member,none⟩ := List.any_eq_true.mp crashes
  exact ⟨s,⟨_,(Runs.feed_run ran).1⟩,record,member,Option.isNone_iff_eq_none.mp none⟩

end HistoryView

end BlindEye
