import BlindEye.WalletSelection

namespace BlindEye.FeeEstimate
open WalletSelection ShortestPrefix LedgerRules

variable {c : Crates} {w : WalletCrates c} {wallet : Wallet c w} {s : Blockchain} {reserved : Finset OutPoint}
  {listing coins taken : List (OutPoint × Utxo)} {preview : TransactionPreview} {recipient : String}
  {amount fee feeRate answer : UInt64} {rounds : Nat}

-- The size of the payment that covers `target` out of these coins in turn.
def billed (wallet : Wallet c w) (recipient : String) (coins : List (OutPoint × Utxo)) (target : Nat) : Nat :=
  20 + (cover entryValue target coins).length * (44 + (c.serialize wallet.publicKey).length) +
    (12 + (utf8Bytes recipient).length) +
    if weigh entryValue (cover entryValue target coins) = target then 0 else 12 + wallet.addressBytes.length

-- The sizes that the estimate works with: the first is a guess, and each of the
-- others is billed for the fee that the one before it comes to.
def sizes (wallet : Wallet c w) (recipient : String) (coins : List (OutPoint × Utxo)) (amount feeRate : UInt64) : Nat → Nat
  | 0 => 220
  | n + 1 => billed wallet recipient coins (amount.toNat + feeRate.toNat * sizes wallet recipient coins amount feeRate n)

-- The wallet can build a payment of `amount` at this fee.
structure Payable (wallet : Wallet c w) (recipient : String) (coins : List (OutPoint × Utxo)) (amount : UInt64) (fee : Nat) :
    Prop where
  valid : Wallet.validateAddress w recipient = true
  owns : Owns wallet
  positive : 0 < amount
  target : amount.toNat + fee < 2^64
  enough : amount.toNat + fee ≤ weigh entryValue coins
  fits : weigh entryValue (cover entryValue (amount.toNat + fee) coins) < 2^64

-- The payments of the guess and of all four rounds can be built.
def Priced (wallet : Wallet c w) (recipient : String) (coins : List (OutPoint × Utxo)) (amount feeRate : UInt64) : Prop :=
  ∀ n ≤ 4, Payable wallet recipient coins amount (feeRate.toNat * sizes wallet recipient coins amount feeRate n)

-- A fifth round would not ask for more than the fourth.
def Settles (wallet : Wallet c w) (recipient : String) (coins : List (OutPoint × Utxo)) (amount feeRate : UInt64) : Prop :=
  Priced wallet recipient coins amount feeRate →
    sizes wallet recipient coins amount feeRate 5 ≤ sizes wallet recipient coins amount feeRate 4

theorem input_size (input : TxInput) : input.serialize.length = 44 + input.scriptSig.length := by
  simp only [TxInput.serialize,List.length_append,u32Bytes_length,input.previousOutput.txid.size]
  omega

theorem output_size (output : TxOutput) : output.serialize.length = 12 + output.scriptPubkey.length := by
  simp only [TxOutput.serialize,List.length_append,u32Bytes_length,u64Bytes_length]

theorem new_size (inputs : List TxInput) (outputs : List TxOutput) : (Transaction.new inputs outputs).estimatedSize =
    20 + (inputs.map fun input => 44 + input.scriptSig.length).sum +
      (outputs.map fun output => 12 + output.scriptPubkey.length).sum := by
  simp only [Transaction.estimatedSize,Transaction.serialize,Transaction.new,List.length_append,u32Bytes_length,
    u64Bytes_length,List.length_flatMap,input_size,output_size]
  omega

theorem previewOf_size (wallet : Wallet c w) (recipient : String) (amount fee : UInt64) (taken : List (OutPoint × Utxo)) :
    (previewOf wallet recipient amount fee taken).transaction.estimatedSize =
      20 + taken.length * (44 + (c.serialize wallet.publicKey).length) + (12 + (utf8Bytes recipient).length) +
        if (previewOf wallet recipient amount fee taken).change > 0 then 12 + wallet.addressBytes.length else 0 := by
  unfold previewOf
  rw [new_size]
  split
  all_goals simp [Function.comp_def]
  omega

theorem build_payable (lists : s.Lists listing) :
    wallet.buildTransactionPreview s listing reserved recipient amount fee = .ok preview ↔
      Payable wallet recipient (offered wallet listing reserved) amount fee.toNat ∧
        preview = previewOf wallet recipient amount fee
          (cover entryValue (amount.toNat + fee.toNat) (offered wallet listing reserved)) := by
  rw [preview_exact lists]
  constructor
  · intro built
    obtain ⟨valid,owns,taken,picked,rfl⟩ := built
    obtain ⟨enough,rfl⟩ := shortest_cover.mp picked.shortest
    exact ⟨⟨valid,owns,picked.positive,picked.target,enough,picked.fits⟩,rfl⟩
  · intro payable
    obtain ⟨payable,rfl⟩ := payable
    have shortest := shortest_cover.mpr ⟨payable.enough,rfl⟩
    exact ⟨payable.valid,payable.owns,_,⟨payable.positive,payable.target,shortest,payable.fits⟩,rfl⟩

theorem payable_built (lists : s.Lists listing) :
    (∃ preview, wallet.buildTransactionPreview s listing reserved recipient amount fee = .ok preview) ↔
      Payable wallet recipient (offered wallet listing reserved) amount fee.toNat := by
  simp only [build_payable lists,exists_and_left,exists_eq,and_true]

theorem built_size (lists : s.Lists listing)
    (built : wallet.buildTransactionPreview s listing reserved recipient amount fee = .ok preview) :
    preview.transaction.estimatedSize = billed wallet recipient (offered wallet listing reserved) (amount.toNat + fee.toNat) := by
  obtain ⟨payable,rfl⟩ := (build_payable lists).mp built
  have shortest := shortest_cover.mpr ⟨payable.enough,rfl⟩
  have picked : Picked amount fee (offered wallet listing reserved) _ :=
    ⟨payable.positive,payable.target,shortest,payable.fits⟩
  have change := picked.change wallet recipient
  have positive : ∀ x : UInt64, x > 0 ↔ 0 < x.toNat := fun x => UInt64.lt_iff_toNat_lt
  rw [previewOf_size,billed]
  split
  · rename_i more
    have more := (positive _).mp more
    rw [if_neg (by omega)]
  · rename_i none
    have zero := mt (positive _).mpr none
    rw [if_pos (by omega)]

-- A fee that a payment can carry is below the edge of the saturating product.
theorem Payable.exact {coins : List (OutPoint × Utxo)} {n : Nat}
    (payable : Payable wallet recipient coins amount (saturate n).toNat) : (saturate n).toNat = n := by
  have target := payable.target
  have positive := UInt64.lt_iff_toNat_lt.mp payable.positive
  change 0 < amount.toNat at positive
  rw [saturate_toNat] at target ⊢
  omega

theorem Payable.below {coins : List (OutPoint × Utxo)} {n : Nat} (payable : Payable wallet recipient coins amount n) :
    (saturate n).toNat = n := by
  have target := payable.target
  rw [saturate_toNat]
  omega

-- One round: the fee that the payment built for `fee` asks for.
def asked (wallet : Wallet c w) (recipient : String) (coins : List (OutPoint × Utxo)) (amount feeRate : UInt64) (fee : Nat) :
    Nat := feeRate.toNat * billed wallet recipient coins (amount.toNat + fee)

theorem built_asks (lists : s.Lists listing)
    (built : wallet.buildTransactionPreview s listing reserved recipient amount fee = .ok preview) :
    preview.transaction.estimatedSize * feeRate.toNat =
      asked wallet recipient (offered wallet listing reserved) amount feeRate fee.toNat := by
  rw [built_size lists built,Nat.mul_comm]
  rfl

theorem iterates_succ {step : Nat → Nat} {P : Nat → Prop} :
    (∀ i ≤ rounds + 1, P (step^[i] x)) ↔ P x ∧ ∀ i ≤ rounds, P (step^[i] (step x)) := by
  constructor
  · intro all
    exact ⟨all 0 (Nat.zero_le _),fun i bound => all (i + 1) (Nat.succ_le_succ bound)⟩
  · intro both i bound
    cases i with
    | zero => exact both.1
    | succ i => exact both.2 i (Nat.le_of_succ_le_succ bound)

-- The loop yields an iterate of `asked` whenever the payments of all its rounds
-- can be built; an early end is a fixed point, so the iterates are the same.
theorem settleFee_iterates (lists : s.Lists listing) :
    (∃ preview, Wallet.settleFee (wallet.buildTransactionPreview s listing reserved recipient amount) feeRate rounds fee =
        .ok answer ∧ wallet.buildTransactionPreview s listing reserved recipient amount answer = .ok preview) ↔
      answer.toNat = (asked wallet recipient (offered wallet listing reserved) amount feeRate)^[rounds] fee.toNat ∧
        ∀ i ≤ rounds, Payable wallet recipient (offered wallet listing reserved) amount
          ((asked wallet recipient (offered wallet listing reserved) amount feeRate)^[i] fee.toNat) := by
  induction rounds generalizing fee with
  | zero =>
    simp only [Wallet.settleFee,Except.ok.injEq,exists_and_left,payable_built lists,Function.iterate_zero,id,Nat.le_zero,
      forall_eq]
    constructor
    · intro settled
      obtain ⟨rfl,ready⟩ := settled
      exact ⟨rfl,ready⟩
    · intro settled
      obtain ⟨same,ready⟩ := settled
      obtain rfl : answer = fee := UInt64.toNat_inj.mp same
      exact ⟨rfl,ready⟩
  | succ rounds ih =>
    rw [Wallet.settleFee,Function.iterate_succ_apply]
    cases built : wallet.buildTransactionPreview s listing reserved recipient amount fee with
    | error text =>
      constructor
      · intro settled
        obtain ⟨_,absurd,_⟩ := settled
        cases absurd
      · intro settled
        obtain ⟨_,made⟩ := (payable_built lists).mpr (settled.2 0 (Nat.zero_le _))
        rw [built] at made
        cases made
    | ok preview =>
      have here := (payable_built lists).mp ⟨preview,built⟩
      dsimp only
      rw [built_asks lists built,iterates_succ,and_iff_right here]
      split
      · rename_i settled
        have fixed : asked wallet recipient (offered wallet listing reserved) amount feeRate fee.toNat = fee.toNat := by
          rw [← settled] at here
          exact here.exact.symm.trans (congrArg UInt64.toNat settled)
        simp only [Except.ok.injEq,exists_and_left,payable_built lists,fixed,Function.iterate_fixed fixed]
        constructor
        · intro same
          obtain ⟨rfl,_⟩ := same
          exact ⟨rfl,fun _ _ => here⟩
        · intro same
          obtain rfl : answer = fee := UInt64.toNat_inj.mp same.1
          exact ⟨rfl,here⟩
      · refine ih.trans ?_
        constructor
        · intro settled
          rw [(settled.2 0 (Nat.zero_le _)).exact] at settled
          exact settled
        · intro settled
          have below : (saturate (asked wallet recipient (offered wallet listing reserved) amount feeRate fee.toNat)).toNat =
              _ := (settled.2 0 (Nat.zero_le _)).below
          rw [below]
          exact settled

theorem sizes_iterate (n : Nat) : (asked wallet recipient coins amount feeRate)^[n] (feeRate.toNat * 220) =
    feeRate.toNat * sizes wallet recipient coins amount feeRate n := by
  induction n with
  | zero => rfl
  | succ n ih =>
    rw [Function.iterate_succ_apply',ih]
    rfl

-- What the estimate and a payment at the estimated fee come to.
theorem estimate_iterates (lists : s.Lists listing) (rated : feeRate ≠ 0) :
    (∃ preview, wallet.estimateFeeForRate s listing reserved recipient amount feeRate = .ok answer ∧
      wallet.buildTransactionPreview s listing reserved recipient amount answer = .ok preview) ↔
    answer.toNat = feeRate.toNat * sizes wallet recipient (offered wallet listing reserved) amount feeRate 4 ∧
      Priced wallet recipient (offered wallet listing reserved) amount feeRate := by
  unfold Wallet.estimateFeeForRate Priced
  rw [if_neg rated]
  refine (settleFee_iterates lists).trans ?_
  have first : (saturate (feeRate.toNat * Wallet.initialFeeEstimateBytes.toNat)).toNat = feeRate.toNat * 220 →
      ∀ n, (asked wallet recipient (offered wallet listing reserved) amount feeRate)^[n]
        (saturate (feeRate.toNat * Wallet.initialFeeEstimateBytes.toNat)).toNat =
          feeRate.toNat * sizes wallet recipient (offered wallet listing reserved) amount feeRate n := by
    intro exact n
    rw [exact]
    exact sizes_iterate n
  constructor
  · intro settled
    have exact := (settled.2 0 (Nat.zero_le _)).exact
    simpa only [first exact] using settled
  · intro settled
    have exact : (saturate (feeRate.toNat * Wallet.initialFeeEstimateBytes.toNat)).toNat = feeRate.toNat * 220 :=
      (settled.2 0 (Nat.zero_le _)).below
    simpa only [first exact] using settled

theorem suggested_fee_exact (lists : s.Lists listing) (rated : 1 ≤ feeRate) :
    (∀ f preview, wallet.estimateFeeForRate s listing reserved recipient amount feeRate = .ok f →
      wallet.buildTransactionPreview s listing reserved recipient amount f = .ok preview →
      preview.transaction.estimatedSize * feeRate.toNat ≤ f.toNat) ↔
    Settles wallet recipient (offered wallet listing reserved) amount feeRate := by
  have positive : 0 < feeRate.toNat := UInt64.le_iff_toNat_le.mp rated
  have nonzero : feeRate ≠ 0 := UInt64.pos_iff_ne_zero.mp (UInt64.lt_iff_toNat_lt.mpr positive)
  constructor
  · intro pays payable
    have target := (payable 4 (Nat.le_refl _)).target
    have exact : (UInt64.ofNat (feeRate.toNat * sizes wallet recipient (offered wallet listing reserved) amount feeRate
        4)).toNat = _ := UInt64.toNat_ofNat_of_lt' (by rw [UInt64.size]; omega)
    obtain ⟨preview,estimated,built⟩ := (estimate_iterates lists nonzero).mpr ⟨exact,payable⟩
    have paid := pays _ preview estimated built
    rw [built_size lists built,exact,Nat.mul_comm] at paid
    exact Nat.le_of_mul_le_mul_left paid positive
  · intro settles f preview estimated built
    obtain ⟨exact,payable⟩ := (estimate_iterates lists nonzero).mp ⟨preview,estimated,built⟩
    rw [built_size lists built,exact,Nat.mul_comm]
    exact Nat.mul_le_mul_left _ (settles payable)

-- The size of a payment out of so many coins, with change.
def paymentSize (wallet : Wallet c w) (recipient : String) (count : Nat) : Nat :=
  20 + count * (44 + (c.serialize wallet.publicKey).length) + (12 + (utf8Bytes recipient).length) +
    (12 + wallet.addressBytes.length)

-- The coins that a fee for so many bytes calls for.
def calledFor (coins : List (OutPoint × Utxo)) (amount feeRate : UInt64) (size : Nat) : List (OutPoint × Utxo) :=
  cover entryValue (amount.toNat + feeRate.toNat * size) coins

-- The first `count` coins pay for the amount and for the guess, and for their own
-- payment, and leave change. At most the last four of them are beyond the guess, and
-- no first coins hold exactly what a round asks for.
structure PaidBy (wallet : Wallet c w) (recipient : String) (coins : List (OutPoint × Utxo)) (amount feeRate : UInt64)
    (count : Nat) : Prop where
  guess : amount.toNat + feeRate.toNat * 220 < weigh entryValue (coins.take count)
  own : amount.toNat + feeRate.toNat * paymentSize wallet recipient count < weigh entryValue (coins.take count)
  near : weigh entryValue (coins.take (count - 4)) < amount.toNat + feeRate.toNat * 220
  apart : ∀ n ≤ count, weigh entryValue (coins.take n) ≠ amount.toNat + feeRate.toNat * 220
  change : ∀ n ≤ count, ∀ later ≤ count,
    weigh entryValue (coins.take n) ≠ amount.toNat + feeRate.toNat * paymentSize wallet recipient later

theorem paymentSize_mono (wallet : Wallet c w) (recipient : String) : Monotone (paymentSize wallet recipient) := by
  intro fewer more less
  have coins := Nat.mul_le_mul_right (44 + (c.serialize wallet.publicKey).length) less
  unfold paymentSize
  omega

theorem calledFor_shortest {size : Nat}
    (covered : amount.toNat + feeRate.toNat * size < weigh entryValue (coins.take count)) :
    Shortest entryValue (amount.toNat + feeRate.toNat * size) coins (calledFor coins amount feeRate size) :=
  shortest_cover.mpr ⟨Nat.le_trans (Nat.le_of_lt covered) (weigh_le (List.take_prefix count coins)),rfl⟩

theorem calledFor_take {size : Nat} (covered : amount.toNat + feeRate.toNat * size < weigh entryValue (coins.take count)) :
    (calledFor coins amount feeRate size).length ≤ count ∧
      calledFor coins amount feeRate size = coins.take (calledFor coins amount feeRate size).length := by
  have shortest := calledFor_shortest covered
  have few := shortest.least _ (List.take_prefix count coins) (Nat.le_of_lt covered)
  exact ⟨Nat.le_trans few (List.length_take_le _ _),List.prefix_iff_eq_take.mp shortest.begins⟩

theorem calledFor_beyond (paid : PaidBy wallet recipient coins amount feeRate count) :
    count - 4 < (calledFor coins amount feeRate 220).length := by
  by_contra early
  have shortest := calledFor_shortest paid.guess
  have covers := shortest.covers
  rw [List.prefix_iff_eq_take.mp shortest.begins] at covers
  have less : weigh entryValue (coins.take (calledFor coins amount feeRate 220).length) ≤
      weigh entryValue (coins.take (count - 4)) := weigh_le (List.take_prefix_take_left (Nat.not_lt.mp early))
  have near := paid.near
  omega

theorem billed_change {target : Nat} (more : weigh entryValue (cover entryValue target coins) ≠ target) :
    billed wallet recipient coins target = paymentSize wallet recipient (cover entryValue target coins).length := by
  rw [billed,if_neg more]
  rfl

-- The number of coins that the payment for `count` coins calls for.
def recount (wallet : Wallet c w) (recipient : String) (coins : List (OutPoint × Utxo)) (amount feeRate : UInt64)
    (count : Nat) : Nat := (calledFor coins amount feeRate (paymentSize wallet recipient count)).length

theorem recount_mono (wallet : Wallet c w) (recipient : String) (coins : List (OutPoint × Utxo)) (amount feeRate : UInt64) :
    Monotone (recount wallet recipient coins amount feeRate) := by
  intro fewer more less
  apply cover_mono
  exact Nat.add_le_add_left (Nat.mul_le_mul_left _ (paymentSize_mono wallet recipient less)) _

theorem sizes_recount (paid : PaidBy wallet recipient coins amount feeRate count) (n : Nat) :
    (recount wallet recipient coins amount feeRate)^[n] (calledFor coins amount feeRate 220).length ≤ count ∧
      sizes wallet recipient coins amount feeRate (n + 1) = paymentSize wallet recipient
        ((recount wallet recipient coins amount feeRate)^[n] (calledFor coins amount feeRate 220).length) := by
  induction n with
  | zero =>
    obtain ⟨few,taken⟩ := calledFor_take paid.guess
    refine ⟨few,billed_change ?_⟩
    have apart := paid.apart _ few
    rwa [← taken] at apart
  | succ n ih =>
    obtain ⟨few,equal⟩ := ih
    have less := Nat.mul_le_mul_left feeRate.toNat (paymentSize_mono wallet recipient few)
    obtain ⟨fewer,taken⟩ := calledFor_take (Nat.lt_of_le_of_lt (Nat.add_le_add_left less _) paid.own)
    rw [Function.iterate_succ_apply',sizes,equal]
    refine ⟨fewer,billed_change ?_⟩
    have change := paid.change _ fewer _ few
    rwa [← taken] at change

-- The rounds take more and more coins, or fewer and fewer, and four rounds reach the end.
theorem few_coins_settle (paid : PaidBy wallet recipient coins amount feeRate count) :
    Settles wallet recipient coins amount feeRate := by
  intro _
  obtain ⟨last,equal⟩ := sizes_recount paid 4
  rw [equal,(sizes_recount paid 3).2]
  apply paymentSize_mono
  by_contra climbing
  have grown : _ < (recount wallet recipient coins amount feeRate)^[4] _ :=
    climbs (recount_mono wallet recipient coins amount feeRate) (Nat.not_le.mp climbing)
  have start := calledFor_beyond paid
  omega

-- One coin that pays for everything.
theorem first_coin_settles {entry : OutPoint × Utxo} (positive : 0 < amount)
    (guess : amount.toNat + feeRate.toNat * 220 < entryValue entry)
    (own : amount.toNat + feeRate.toNat * paymentSize wallet recipient 1 < entryValue entry) :
    Settles wallet recipient (entry :: coins) amount feeRate := by
  have wanted : 0 < amount.toNat := UInt64.lt_iff_toNat_lt.mp positive
  have few : ∀ n ≤ 1, ∀ target, 0 < target → target < entryValue entry →
      weigh entryValue ((entry :: coins).take n) ≠ target := by
    intro n one target less more
    interval_cases n
    · simpa using Nat.ne_of_lt less
    · simpa using Nat.ne_of_gt more
  have paid : PaidBy wallet recipient (entry :: coins) amount feeRate 1 := by
    refine ⟨?_,?_,?_,?_,?_⟩
    · simpa using guess
    · simpa using own
    · simpa using Nat.add_pos_left wanted _
    · intro n one
      exact few n one _ (Nat.add_pos_left wanted _) guess
    · intro n one later before
      have less := Nat.mul_le_mul_left feeRate.toNat (paymentSize_mono wallet recipient before)
      exact few n one _ (Nat.add_pos_left wanted _) (by omega)
  exact few_coins_settle paid

def coinsOf (values : List UInt64) : List (OutPoint × Utxo) :=
  values.zipIdx.map fun (value,i) => (⟨.zero,UInt32.ofNat i⟩,⟨⟨value,generatorWallet.addressBytes⟩,1,false⟩)

def holding (values : List UInt64) : Blockchain := { genesisState with utxoSet := FiniteMap.insertAll ∅ (coinsOf values) }

-- The guess takes two of these coins, and a payment for 284 bytes takes all three.
def purse : List (OutPoint × Utxo) := coinsOf [200,150,1000]

theorem purse_paid : PaidBy generatorWallet WalletAdmission.recipientAddress (offered generatorWallet purse ∅) 100 1 3 := by
  constructor <;> decide +kernel

theorem suggested_fee_exact_purse :
    (calledFor (offered generatorWallet purse ∅) 100 1 220).length = 2 ∧ ∃ preview,
      generatorWallet.estimateFeeForRate (holding [200,150,1000]) purse ∅ WalletAdmission.recipientAddress 100 1 =
        .ok 361 ∧
      generatorWallet.buildTransactionPreview (holding [200,150,1000]) purse ∅ WalletAdmission.recipientAddress 100 361 =
        .ok preview ∧ preview.transaction.inputs.length = 3 ∧
      preview.transaction.estimatedSize * (1 : UInt64).toNat ≤ (361 : UInt64).toNat := by
  have estimated : generatorWallet.estimateFeeForRate (holding [200,150,1000]) purse ∅ WalletAdmission.recipientAddress
      100 1 = .ok 361 := by decide +kernel
  have made : (generatorWallet.buildTransactionPreview (holding [200,150,1000]) purse ∅ WalletAdmission.recipientAddress
      100 361).map (fun preview => preview.transaction.inputs.length) = .ok 3 := by decide +kernel
  have listed : (holding [200,150,1000]).Lists purse := by decide +kernel
  obtain ⟨preview,built,inputs⟩ := Fallible.map_ok.mp made
  have pays := (suggested_fee_exact listed (by decide)).mpr (few_coins_settle purse_paid) 361 preview estimated built
  exact ⟨by decide +kernel,preview,estimated,built,inputs,pays⟩

-- Two coins of 384 units in all: with the change the payment has 284 bytes, at
-- a fee of 284 there is no change and 229 bytes remain, and at 229 there is.
theorem change_flickers : (holding [100,284]).Lists (coinsOf [100,284]) ∧ ∃ preview,
    generatorWallet.estimateFeeForRate (holding [100,284]) (coinsOf [100,284]) ∅ WalletAdmission.recipientAddress 100 1 =
      .ok 229 ∧
    generatorWallet.buildTransactionPreview (holding [100,284]) (coinsOf [100,284]) ∅ WalletAdmission.recipientAddress 100
      229 = .ok preview ∧ preview.transaction.estimatedSize = 284 := by
  have made : (generatorWallet.buildTransactionPreview (holding [100,284]) (coinsOf [100,284]) ∅
      WalletAdmission.recipientAddress 100 229).map (fun preview => preview.transaction.estimatedSize) = .ok 284 := by
    decide +kernel
  obtain ⟨preview,built,size⟩ := Fallible.map_ok.mp made
  exact ⟨by decide +kernel,preview,by decide +kernel,built,size⟩

end BlindEye.FeeEstimate
