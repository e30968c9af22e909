import BlindEye.Library.ShortestPrefix
import BlindEye.WalletAdmission

namespace BlindEye.WalletSelection
open WalletAdmission LedgerRules ShortestPrefix

variable {c : Crates} {w : WalletCrates c} {wallet : Wallet c w} {s : Blockchain} {reserved : Finset OutPoint}
  {entries listing other chosen selected taken coins : List (OutPoint × Utxo)} {preview : TransactionPreview}
  {entry : OutPoint × Utxo} {recipient : String} {amount fee total next sum target : UInt64}

def entryValue (entry : OutPoint × Utxo) : Nat := coinValue entry.2

def unreserved (reserved : Finset OutPoint) (entries : List (OutPoint × Utxo)) : List (OutPoint × Utxo) :=
  entries.filter fun entry => decide (entry.1 ∉ reserved)

-- The coins that the wallet may spend, in the order in which it takes them.
def offered (wallet : Wallet c w) (listing : List (OutPoint × Utxo)) (reserved : Finset OutPoint) : List (OutPoint × Utxo) :=
  unreserved reserved (Blockchain.getSpendableUtxos listing wallet.addressBytes)

-- The wallet's key opens what is paid to the wallet's address.
def Owns (wallet : Wallet c w) : Prop :=
  addressFromScriptSig c (c.serialize wallet.publicKey) = some wallet.addressBytes

-- The preview that pays `amount` out of these coins.
def previewOf (wallet : Wallet c w) (recipient : String) (amount fee : UInt64) (taken : List (OutPoint × Utxo)) :
    TransactionPreview :=
  let change := UInt64.ofNat (weigh entryValue taken - (amount.toNat + fee.toNat))
  let inputs := taken.map fun (outpoint,_) => ⟨outpoint,c.serialize wallet.publicKey,UInt32.ofNat (2^32 - 1)⟩
  let outputs := ⟨amount,utf8Bytes recipient⟩ :: if change > 0 then [⟨change,wallet.addressBytes⟩] else []
  ⟨.new inputs outputs,recipient,amount,fee,change,UInt64.ofNat (weigh entryValue taken)⟩

-- The coins whose sum reaches the target, and fits a u64 when it does.
structure Picked (amount fee : UInt64) (coins taken : List (OutPoint × Utxo)) : Prop where
  positive : 0 < amount
  target : amount.toNat + fee.toNat < 2^64
  shortest : Shortest entryValue (amount.toNat + fee.toNat) coins taken
  fits : weigh entryValue taken < 2^64

-- The first coin is taken, and the rest is asked of the others.
theorem take_first {entry : OutPoint × Utxo} (wanted : 0 < target.toNat - total.toNat)
    (grown : next.toNat = total.toNat + entry.2.output.value.toNat) :
    (∃ taken, selected = chosen ++ taken ∧ sum.toNat = total.toNat + weigh entryValue taken ∧
      Shortest entryValue (target.toNat - total.toNat) (entry :: entries) taken) ↔
    ∃ more, selected = chosen ++ [entry] ++ more ∧ sum.toNat = next.toNat + weigh entryValue more ∧
      Shortest entryValue (target.toNat - next.toNat) entries more := by
  have value : ∀ more, weigh entryValue (entry :: more) = entry.2.output.value.toNat + weigh entryValue more :=
    fun _ => weigh_cons
  have less : target.toNat - next.toNat = target.toNat - total.toNat - entryValue entry := by
    rw [grown,Nat.sub_add_eq]
    rfl
  rw [less]
  constructor
  · intro found
    obtain ⟨taken,equal,exact,shortest⟩ := found
    obtain ⟨more,rfl,others⟩ := (shortest_cons wanted).mp shortest
    rw [value] at exact
    exact ⟨more,by simpa using equal,by omega,others⟩
  · intro found
    obtain ⟨more,equal,exact,others⟩ := found
    refine ⟨entry :: more,by simpa using equal,?_,(shortest_cons wanted).mpr ⟨more,rfl,others⟩⟩
    rw [value]
    omega

-- The loop takes the shortest run of unreserved coins from the front.
theorem selectInputs_exact (below : total < target) :
    (Wallet.selectInputs reserved target entries chosen total = .ok (selected,sum) ∧ target ≤ sum) ↔
      ∃ taken, selected = chosen ++ taken ∧ sum.toNat = total.toNat + weigh entryValue taken ∧
        Shortest entryValue (target.toNat - total.toNat) (unreserved reserved entries) taken := by
  have wanted : 0 < target.toNat - total.toNat := Nat.sub_pos_of_lt (UInt64.lt_iff_toNat_lt.mp below)
  induction entries generalizing chosen total with
  | nil =>
    constructor
    · intro picked
      obtain ⟨picked,reached⟩ := picked
      cases picked
      exact absurd below (UInt64.not_lt.mpr reached)
    · intro found
      obtain ⟨taken,_,_,shortest⟩ := found
      have covers := Nat.le_trans shortest.covers (weigh_le shortest.begins)
      exact absurd covers (Nat.not_le.mpr wanted)
  | cons entry rest ih =>
    unfold Wallet.selectInputs
    by_cases held : entry.1 ∈ reserved
    · rw [if_pos held,unreserved,List.filter_cons_of_neg (by simpa using held)]
      exact ih below wanted
    · rw [if_neg held,unreserved,List.filter_cons_of_pos (by simpa using held)]
      cases added : checkedAdd total entry.2.output.value with
      | none =>
        constructor
        · intro picked
          cases picked.1
        · intro found
          obtain ⟨taken,_,exact,shortest⟩ := found
          obtain ⟨more,rfl,_⟩ := (shortest_cons wanted).mp shortest
          have bound := sum.toNat_lt
          have value : weigh entryValue (entry :: more) = entry.2.output.value.toNat + weigh entryValue more := weigh_cons
          obtain ⟨mid,fits⟩ : ∃ mid : UInt64, mid.toNat = total.toNat + entry.2.output.value.toNat :=
            toNat_reaches (by omega)
          rw [checkedAdd_exact.mpr fits] at added
          cases added
      | some next =>
        have grown := checkedAdd_exact.mp added
        rw [take_first wanted grown]
        dsimp only
        by_cases reached : next ≥ target
        · rw [if_pos reached,Nat.sub_eq_zero_of_le (UInt64.le_iff_toNat_le.mp reached)]
          simp only [shortest_zero,Except.ok.injEq,Prod.mk.injEq]
          constructor
          · intro picked
            obtain ⟨⟨rfl,rfl⟩,_⟩ := picked
            exact ⟨[],(List.append_nil _).symm,rfl,rfl⟩
          · intro found
            obtain ⟨_,rfl,exact,rfl⟩ := found
            obtain rfl : sum = next := UInt64.toNat_inj.mp exact
            exact ⟨⟨(List.append_nil _).symm,rfl⟩,reached⟩
        · rw [if_neg reached]
          have below := UInt64.not_le.mp reached
          exact ih below (Nat.sub_pos_of_lt (UInt64.lt_iff_toNat_lt.mp below))

theorem offered_coin (lists : s.Lists listing) (member : entry ∈ offered wallet listing reserved) :
    s.utxoSet.lookup entry.1 = some entry.2 ∧ entry.2.output.scriptPubkey = wallet.addressBytes ∧ entry.1 ∉ reserved := by
  obtain ⟨spendable,free⟩ := List.mem_filter.mp member
  obtain ⟨inside,locked⟩ := List.mem_filter.mp ((List.mem_insertionSort _).mp spendable)
  exact ⟨(FiniteMap.lists_exact lists).mp inside,of_decide_eq_true locked,of_decide_eq_true free⟩

theorem offered_distinct (wallet : Wallet c w) (reserved : Finset OutPoint) (lists : s.Lists listing) : ((offered wallet listing reserved).map Prod.fst).Nodup := by
  have own := (FiniteMap.lists_distinct lists).sublist (List.filter_sublist (p := fun entry =>
    decide (entry.2.output.scriptPubkey = wallet.addressBytes)).map Prod.fst)
  have sorted := ((List.perm_insertionSort (fun left right => (Blockchain.spendOrder left right).isLE) _).map
    Prod.fst).nodup_iff.mpr own
  exact sorted.sublist (List.filter_sublist.map Prod.fst)

theorem previewOf_spends (wallet : Wallet c w) (recipient : String) (amount fee : UInt64) (taken : List (OutPoint × Utxo)) :
    (previewOf wallet recipient amount fee taken).transaction.spends = taken.map Prod.fst := by
  simp [previewOf,Transaction.new,Transaction.spends,Function.comp_def]

theorem Picked.change (wallet : Wallet c w) (recipient : String) (picked : Picked amount fee coins taken) :
    amount.toNat + fee.toNat + (previewOf wallet recipient amount fee taken).change.toNat = weigh entryValue taken := by
  have covers := picked.shortest.covers
  have fits := picked.fits
  have exact : (previewOf wallet recipient amount fee taken).change.toNat =
      weigh entryValue taken - (amount.toNat + fee.toNat) :=
    UInt64.toNat_ofNat_of_lt' (by rw [UInt64.size]; omega)
  omega

theorem Picked.nonempty (picked : Picked amount fee coins taken) : taken ≠ [] := by
  rintro rfl
  have covers := picked.shortest.covers
  have positive := UInt64.lt_iff_toNat_lt.mp picked.positive
  simp only [weigh_nil] at covers
  change 0 < amount.toNat at positive
  omega

theorem previewOf_outputs (picked : Picked amount fee coins taken) :
    outputTotal (previewOf wallet recipient amount fee taken).transaction + fee.toNat = weigh entryValue taken := by
  have change := picked.change wallet recipient
  have outputs : outputTotal (previewOf wallet recipient amount fee taken).transaction =
      amount.toNat + (previewOf wallet recipient amount fee taken).change.toNat := change_outputs _ _ _ _ _
  omega

theorem previewOf_inputs (lists : s.Lists listing) (begins : taken <+: offered wallet listing reserved) :
    inputTotal s.utxoSet (previewOf wallet recipient amount fee taken).transaction = weigh entryValue taken := by
  unfold inputTotal weigh
  rw [previewOf_spends,List.map_map]
  apply congrArg List.sum
  apply List.map_congr_left
  intro entry member
  obtain ⟨found,_⟩ := offered_coin lists (begins.subset member)
  simp [FiniteMap.valueAt,found,entryValue]

theorem previewOf_valid (lists : s.Lists listing) (picked : Picked amount fee (offered wallet listing reserved) taken) :
    (previewOf wallet recipient amount fee taken).transaction.validate = .ok () := by
  apply (Transaction.validate_exact _).mpr
  refine ⟨List.cons_ne_nil _ _,?_,?_⟩
  · rw [previewOf_spends]
    exact (offered_distinct wallet reserved lists).sublist (picked.shortest.begins.sublist.map Prod.fst)
  · intro output member
    rcases List.mem_cons.mp member with rfl | change
    · exact (UInt64.pos_iff_ne_zero).mp picked.positive
    · split at change
      · rename_i positive
        obtain rfl := List.mem_singleton.mp change
        exact (UInt64.pos_iff_ne_zero).mp positive
      · cases change

theorem previewOf_spendable (lists : s.Lists listing) (begins : taken <+: offered wallet listing reserved)
    (nonempty : taken ≠ []) :
    (∀ input ∈ (previewOf wallet recipient amount fee taken).transaction.inputs, Spendable c s.utxoSet input) ↔
      Owns wallet := by
  constructor
  · intro spendable
    obtain ⟨entry,rest,rfl⟩ := List.exists_cons_of_ne_nil nonempty
    obtain ⟨found,locked,_⟩ := offered_coin lists (begins.subset List.mem_cons_self)
    obtain ⟨utxo,stored,opens⟩ := spendable ⟨entry.1,c.serialize wallet.publicKey,UInt32.ofNat (2^32 - 1)⟩ List.mem_cons_self
    cases Option.some.inj (stored.symm.trans found)
    rw [locked] at opens
    exact opens
  · intro owns input member
    obtain ⟨entry,inside,rfl⟩ := List.mem_map.mp member
    obtain ⟨found,locked,_⟩ := offered_coin lists (begins.subset inside)
    exact ⟨entry.2,found,by rw [locked]; exact owns⟩

-- The node's own computation of the fee agrees, and every other check passes,
-- exactly when the wallet's key opens the wallet's coins.
theorem previewOf_fee (lists : s.Lists listing) (picked : Picked amount fee (offered wallet listing reserved) taken) :
    s.calculateTransactionFee c (previewOf wallet recipient amount fee taken).transaction = .ok answer ↔
      Owns wallet ∧ answer = fee := by
  have begins := picked.shortest.begins
  have inputs : inputTotal s.utxoSet (previewOf wallet recipient amount fee taken).transaction = _ :=
    previewOf_inputs lists begins
  have outputs : outputTotal (previewOf wallet recipient amount fee taken).transaction + fee.toNat = _ :=
    previewOf_outputs picked
  have fits := picked.fits
  rw [Blockchain.calculateTransactionFee,validateTransaction_exact,inputs,totalOutputValue_wraps,
    Nat.mod_eq_of_lt (by omega),previewOf_spendable lists begins picked.nonempty]
  constructor
  · intro passed
    obtain ⟨_,owns,_,balance⟩ := passed
    exact ⟨owns,UInt64.toNat_inj.mp (by omega)⟩
  · intro owned
    obtain ⟨owns,rfl⟩ := owned
    exact ⟨previewOf_valid lists picked,owns,fits,by omega⟩

theorem previewOf_validates (lists : s.Lists listing) (picked : Picked amount fee (offered wallet listing reserved) taken) :
    s.validateTransaction c (previewOf wallet recipient amount fee taken).transaction = .ok () ↔ Owns wallet := by
  have spending : (previewOf wallet recipient amount fee taken).transaction.inputs.isEmpty = false := by
    simpa [previewOf,Transaction.new] using picked.nonempty
  have fee_ : ∀ answer, s.calculateTransactionFee c (previewOf wallet recipient amount fee taken).transaction = .ok answer ↔ _ :=
    fun _ => previewOf_fee lists picked
  unfold Blockchain.validateTransaction
  rw [spending,if_neg Bool.false_ne_true,Fallible.map_ok]
  constructor
  · intro passed
    obtain ⟨answer,paid,_⟩ := passed
    exact ((fee_ answer).mp paid).1
  · intro owns
    exact ⟨fee,(fee_ fee).mpr ⟨owns,rfl⟩,rfl⟩

-- The call once its coins are selected.
theorem preview_selected (valid : Wallet.validateAddress w recipient = true) (picked : Picked amount fee coins taken)
    (selects : coins = offered wallet listing reserved) :
    wallet.buildTransactionPreview s listing reserved recipient amount fee =
      (s.validateTransaction c (previewOf wallet recipient amount fee taken).transaction).map fun _ =>
        previewOf wallet recipient amount fee taken := by
  have fits := picked.fits
  have covers := picked.shortest.covers
  have positive := UInt64.lt_iff_toNat_lt.mp picked.positive
  have target : (UInt64.ofNat (amount.toNat + fee.toNat)).toNat = amount.toNat + fee.toNat :=
    UInt64.toNat_ofNat_of_lt' picked.target
  have total : (UInt64.ofNat (weigh entryValue taken)).toNat = weigh entryValue taken := UInt64.toNat_ofNat_of_lt' fits
  have below : (0 : UInt64) < UInt64.ofNat (amount.toNat + fee.toNat) := by
    rw [UInt64.lt_iff_toNat_lt,target]
    exact Nat.lt_of_lt_of_le positive (Nat.le_add_right _ _)
  have ready : Wallet.selectInputs reserved (UInt64.ofNat (amount.toNat + fee.toNat))
      (Blockchain.getSpendableUtxos listing wallet.addressBytes) [] 0 = .ok (taken,UInt64.ofNat (weigh entryValue taken)) := by
    refine ((selectInputs_exact below).mpr ⟨taken,rfl,by rw [total]; exact (Nat.zero_add _).symm,?_⟩).1
    have shortest := picked.shortest
    rw [selects] at shortest
    rw [target]
    exact shortest
  have reached : ¬ UInt64.ofNat (weigh entryValue taken) < UInt64.ofNat (amount.toNat + fee.toNat) := by
    rw [UInt64.lt_iff_toNat_lt,target,total]
    omega
  have change : UInt64.ofNat (weigh entryValue taken) - UInt64.ofNat (amount.toNat + fee.toNat) =
      UInt64.ofNat (weigh entryValue taken - (amount.toNat + fee.toNat)) := by
    apply UInt64.toNat_inj.mp
    rw [UInt64.toNat_sub_of_le _ _ (UInt64.not_lt.mp reached),target,total,UInt64.toNat_ofNat_of_lt']
    rw [UInt64.size]
    omega
  unfold Wallet.buildTransactionPreview
  rw [if_neg (by simpa using valid),if_neg (UInt64.pos_iff_ne_zero.mp picked.positive),checkedAdd_exact.mpr target]
  simp only [ready,if_neg reached,change]
  split
  · rename_i err failed
    have failed : s.validateTransaction c (previewOf wallet recipient amount fee taken).transaction = .error err := failed
    rw [failed]
    rfl
  · rename_i passed
    have passed : s.validateTransaction c (previewOf wallet recipient amount fee taken).transaction = .ok () := passed
    rw [passed]
    rfl

-- What the call has found when it answers with a preview.
theorem preview_picked (built : wallet.buildTransactionPreview s listing reserved recipient amount fee = .ok preview) :
    Wallet.validateAddress w recipient = true ∧ ∃ taken, Picked amount fee (offered wallet listing reserved) taken := by
  unfold Wallet.buildTransactionPreview at built
  split at built
  · cases built
  · rename_i valid
    split at built
    · cases built
    · rename_i nonzero
      split at built
      · cases built
      · rename_i target added
        split at built
        · cases built
        · rename_i taken total ran
          split at built
          · cases built
          · rename_i reached
            have exact := checkedAdd_exact.mp added
            have positive := UInt64.pos_iff_ne_zero.mpr nonzero
            have below : 0 < target := by
              rw [UInt64.lt_iff_toNat_lt,exact]
              exact Nat.lt_of_lt_of_le (UInt64.lt_iff_toNat_lt.mp positive) (Nat.le_add_right _ _)
            obtain ⟨taken,rfl,sum,shortest⟩ := (selectInputs_exact below).mp ⟨ran,UInt64.not_lt.mp reached⟩
            rw [exact] at shortest
            have sum : total.toNat = weigh entryValue taken := sum.trans (Nat.zero_add _)
            exact ⟨by simpa using valid,taken,positive,exact ▸ target.toNat_lt,shortest,sum ▸ total.toNat_lt⟩

theorem preview_exact (lists : s.Lists listing) :
    wallet.buildTransactionPreview s listing reserved recipient amount fee = .ok preview ↔
      Wallet.validateAddress w recipient = true ∧ Owns wallet ∧
        ∃ taken, Picked amount fee (offered wallet listing reserved) taken ∧
          preview = previewOf wallet recipient amount fee taken := by
  constructor
  · intro built
    obtain ⟨valid,taken,picked⟩ := preview_picked built
    rw [preview_selected valid picked rfl,Fallible.map_ok] at built
    obtain ⟨_,passed,rfl⟩ := built
    exact ⟨valid,(previewOf_validates lists picked).mp passed,taken,picked,rfl⟩
  · intro ready
    obtain ⟨valid,owns,taken,picked,rfl⟩ := ready
    rw [preview_selected valid picked rfl,(previewOf_validates lists picked).mpr owns]
    rfl

-- The unreserved outputs of the ledger that pay to a script, without an order.
def payingTo (s : Blockchain) (script : List UInt8) (reserved : Finset OutPoint) : Multiset (OutPoint × Utxo) :=
  (s.utxoSet.entries.map fun entry => (entry.1,entry.2)).filter fun entry =>
    entry.2.output.scriptPubkey = script ∧ entry.1 ∉ reserved

def funds (s : Blockchain) (script : List UInt8) (reserved : Finset OutPoint) : Nat :=
  ((payingTo s script reserved).map entryValue).sum

-- The same outputs in the order of height, txid and index.
structure Coins (s : Blockchain) (script : List UInt8) (reserved : Finset OutPoint) (coins : List (OutPoint × Utxo)) : Prop where
  all : (coins : Multiset (OutPoint × Utxo)) = payingTo s script reserved
  ordered : coins.Pairwise fun left right => Blockchain.spendOrder left right = .lt

instance : Std.TransCmp Blockchain.spendOrder :=
  inferInstanceAs (Std.TransCmp (compareLex (compareOn fun entry : OutPoint × Utxo => entry.2.blockHeight)
    (compareLex (compareOn fun entry => entry.1.txid.bytes) (compareOn fun entry => entry.1.vout))))

theorem spendOrder_key {left right : OutPoint × Utxo} (equal : Blockchain.spendOrder left right = .eq) : left.1 = right.1 := by
  unfold Blockchain.spendOrder at equal
  simp only [Ordering.then_eq_eq,Std.LawfulEqOrd.compare_eq_iff_eq] at equal
  obtain ⟨_,bytes,vout⟩ := equal
  obtain ⟨⟨txid,index⟩,_⟩ := left
  obtain ⟨⟨txid',index'⟩,_⟩ := right
  obtain rfl : txid = txid' := Digest.ext_bytes bytes
  obtain rfl : index = index' := vout
  rfl

theorem sorted_le (entries : List (OutPoint × Utxo)) :
    (entries.insertionSort fun left right => (Blockchain.spendOrder left right).isLE).Pairwise
      fun left right => (Blockchain.spendOrder left right).isLE = true := by
  have total : Std.Total fun left right : OutPoint × Utxo => (Blockchain.spendOrder left right).isLE = true := by
    refine ⟨fun left right => ?_⟩
    by_cases first : (Blockchain.spendOrder left right).isLE = true
    · exact .inl first
    · refine .inr (Ordering.isLE_of_eq_lt (Std.OrientedCmp.lt_of_not_isLE ?_))
      simpa using first
  have trans : IsTrans (OutPoint × Utxo) fun left right => (Blockchain.spendOrder left right).isLE = true :=
    ⟨fun _ _ _ => Std.TransCmp.isLE_trans⟩
  exact List.pairwise_insertionSort _ _

theorem offered_coins (lists : s.Lists listing) :
    Coins s wallet.addressBytes reserved (offered wallet listing reserved) := by
  constructor
  · have sorted : ((Blockchain.getSpendableUtxos listing wallet.addressBytes : List (OutPoint × Utxo)) :
        Multiset (OutPoint × Utxo)) = (listing : Multiset (OutPoint × Utxo)).filter fun entry =>
          entry.2.output.scriptPubkey = wallet.addressBytes := by
      rw [Multiset.filter_coe]
      exact Multiset.coe_eq_coe.mpr (List.perm_insertionSort _ _)
    unfold offered unreserved payingTo
    rw [← Multiset.filter_coe,sorted,lists,Multiset.filter_filter]
    apply Multiset.filter_congr
    intro entry _
    exact and_comm
  · have sorted := (sorted_le (listing.filter fun entry =>
      decide (entry.2.output.scriptPubkey = wallet.addressBytes))).sublist
        (List.filter_sublist (p := fun entry => decide (entry.1 ∉ reserved)))
    have apart := List.pairwise_map.mp (offered_distinct wallet reserved lists)
    refine (sorted.and apart).imp ?_
    intro left right both
    obtain ⟨le,differ⟩ := both
    cases order : Blockchain.spendOrder left right with
    | lt => rfl
    | eq => exact absurd (spendOrder_key order) differ
    | gt =>
      rw [order] at le
      cases le

theorem Coins.unique {script : List UInt8} (one : Coins s script reserved coins) (two : Coins s script reserved entries) :
    coins = entries := by
  have perm : coins.Perm entries := Multiset.coe_eq_coe.mp (one.all.trans two.all.symm)
  refine perm.eq_of_pairwise ?_ one.ordered two.ordered
  intro left right _ _ before after
  exact absurd after (Std.OrientedCmp.not_lt_of_lt before)

theorem Coins.worth {script : List UInt8} (all : Coins s script reserved coins) :
    weigh entryValue coins = funds s script reserved := by
  rw [funds,← all.all]
  rfl

-- What a preview is, over the coins in order and those that are taken.
structure Selects (wallet : Wallet c w) (s : Blockchain) (recipient : String) (amount fee : UInt64)
    (coins taken : List (OutPoint × Utxo)) (preview : TransactionPreview) : Prop where
  shortest : Shortest entryValue (amount.toNat + fee.toNat) coins taken
  inputs : preview.transaction.inputs =
    taken.map fun entry => ⟨entry.1,c.serialize wallet.publicKey,UInt32.ofNat (2^32 - 1)⟩
  outputs : preview.transaction.outputs =
    ⟨amount,utf8Bytes recipient⟩ :: if preview.change > 0 then [⟨preview.change,wallet.addressBytes⟩] else []
  balance : inputTotal s.utxoSet preview.transaction = amount.toNat + fee.toNat + preview.change.toNat
  charged : s.calculateTransactionFee c preview.transaction = .ok fee

theorem preview_selects (lists : s.Lists listing)
    (built : wallet.buildTransactionPreview s listing reserved recipient amount fee = .ok preview) :
    ∃ taken, Selects wallet s recipient amount fee (offered wallet listing reserved) taken preview := by
  obtain ⟨_,owns,taken,picked,rfl⟩ := (preview_exact lists).mp built
  refine ⟨taken,picked.shortest,rfl,rfl,?_,(previewOf_fee lists picked).mpr ⟨owns,rfl⟩⟩
  rw [previewOf_inputs lists picked.shortest.begins,picked.change]

theorem listing_irrelevant (lists : s.Lists listing) (others : s.Lists other) :
    wallet.buildTransactionPreview s other reserved recipient amount fee =
      wallet.buildTransactionPreview s listing reserved recipient amount fee := by
  have paying : ∀ {entries}, s.Lists entries →
      Coins s wallet.addressBytes ∅ (Blockchain.getSpendableUtxos entries wallet.addressBytes) := by
    intro entries lists
    have coins : Coins s wallet.addressBytes ∅ (offered wallet entries ∅) := offered_coins lists
    simpa [offered,unreserved] using coins
  unfold Wallet.buildTransactionPreview
  rw [(paying others).unique (paying lists)]

theorem address_owns (undoes : ∀ key, c.fromSlice (c.serialize key) = some key)
    (address : wallet.address = addressFromPublicKey c wallet.publicKey) : Owns wallet := by
  rw [Owns,addressFromScriptSig,undoes,Wallet.addressBytes,address]
  rfl

theorem coin_selection_exact (undoes : ∀ key, c.fromSlice (c.serialize key) = some key)
    (address : wallet.address = addressFromPublicKey c wallet.publicKey) (lists : s.Lists listing)
    (fits : funds s wallet.addressBytes reserved < 2^64) :
    ((∃ preview, wallet.buildTransactionPreview s listing reserved recipient amount fee = .ok preview) ↔
      Wallet.validateAddress w recipient = true ∧ 0 < amount ∧ amount.toNat + fee.toNat < 2^64 ∧
        amount.toNat + fee.toNat ≤ funds s wallet.addressBytes reserved) ∧
    (∀ preview, wallet.buildTransactionPreview s listing reserved recipient amount fee = .ok preview →
      ∃ coins taken, Coins s wallet.addressBytes reserved coins ∧
        Selects wallet s recipient amount fee coins taken preview) ∧
    (∀ other, s.Lists other → wallet.buildTransactionPreview s other reserved recipient amount fee =
      wallet.buildTransactionPreview s listing reserved recipient amount fee) := by
  have coins : Coins s wallet.addressBytes reserved (offered wallet listing reserved) := offered_coins lists
  refine ⟨⟨?_,?_⟩,?_,fun other => listing_irrelevant lists⟩
  · intro found
    obtain ⟨preview,built⟩ := found
    obtain ⟨valid,_,taken,picked,_⟩ := (preview_exact lists).mp built
    have enough := shortest_exists.mp ⟨taken,picked.shortest⟩
    rw [coins.worth] at enough
    exact ⟨valid,picked.positive,picked.target,enough⟩
  · intro ready
    obtain ⟨valid,positive,target,enough⟩ := ready
    rw [← coins.worth] at enough fits
    obtain ⟨taken,shortest⟩ := shortest_exists.mpr enough
    have picked : Picked amount fee (offered wallet listing reserved) taken :=
      ⟨positive,target,shortest,Nat.lt_of_le_of_lt (weigh_le shortest.begins) fits⟩
    exact ⟨_,(preview_exact lists).mpr ⟨valid,address_owns undoes address,taken,picked,rfl⟩⟩
  · intro preview built
    obtain ⟨taken,selects⟩ := preview_selects lists built
    exact ⟨_,taken,coins,selects⟩

def purse : List (OutPoint × Utxo) :=
  [(⟨.zero,1⟩,⟨⟨40,generatorWallet.addressBytes⟩,2,false⟩),(⟨.zero,0⟩,⟨⟨50,generatorWallet.addressBytes⟩,2,false⟩)]

def pursed : Blockchain := { genesisState with utxoSet := FiniteMap.insertAll ∅ purse }

theorem coin_selection_exact_purse :
    ∃ preview, generatorWallet.buildTransactionPreview pursed purse ∅ recipientAddress 60 15 = .ok preview :=
  ((coin_selection_exact (fun _ => rfl) rfl (by decide +kernel) (by decide +kernel)).1).mpr (by decide +kernel)

end BlindEye.WalletSelection
