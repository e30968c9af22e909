import BlindEye.TemplateAcceptance

namespace BlindEye.HonestCoinbase
open Emission LedgerRules TemplateAcceptance ChainState Protocol

variable {c : Crates} {height fees : UInt64} {miner : List UInt8} {utxoSet : UtxoSet} {values : List MempoolEntry}
  {template : BlockTemplate} {node : Node} {nextWorkBits : Blockchain → Nat → UInt32}

-- The coinbase of `create_block_template`: one output of the subsidy and the fees.
def honestCoinbase (height fees : UInt64) (miner : List UInt8) : Transaction :=
  createCoinbaseTransaction height (saturate (subsidy height + fees.toNat)) miner

-- The coinbase checks of `apply_block_to_utxo_set`, the reward check, and a
-- block of the coinbase alone where there is nothing else to mine.
structure Passes (c : Crates) (height fees : UInt64) (miner : List UInt8) : Prop where
  coinbase : ∀ utxoSet, ∃ after, applyCoinbase c height (honestCoinbase height fees miner) utxoSet = .ok after
  reward : validateBlockReward height (honestCoinbase height fees miner) fees = .ok ()
  alone : fees = 0 → ∀ header utxoSet, header.height = height →
    ∃ after, applyBlockToUtxoSet c ⟨header,[honestCoinbase height fees miner]⟩ utxoSet = .ok after

-- The last subsidy is 1 unit: 10^10 is at least 2^33.
theorem subsidy_positive (height : UInt64) : 0 < subsidy height ↔ height / halvingIntervalBlocks < 34 := by
  have halvings : EmissionSchedule.default.maxHalvings.toUInt64 = 34 := by decide
  have interval : EmissionSchedule.default.halvingInterval = halvingIntervalBlocks := rfl
  unfold subsidy EmissionSchedule.blockReward
  rw [halvings,interval]
  dsimp only
  split
  · rename_i late
    simpa using late
  · rename_i early
    have early := UInt64.not_le.mp early
    have count : (height / halvingIntervalBlocks).toNat < 34 := UInt64.lt_iff_toNat_lt.mp early
    have power : 2^(height / halvingIntervalBlocks).toNat ≤ EmissionSchedule.default.initialReward.toNat :=
      calc 2^(height / halvingIntervalBlocks).toNat ≤ 2^33 := Nat.pow_le_pow_right (by decide) (Nat.le_of_lt_succ count)
        _ ≤ EmissionSchedule.default.initialReward.toNat := by decide
    rw [UInt64.toNat_shiftRight,Nat.mod_eq_of_lt (by omega),Nat.shiftRight_eq_div_pow]
    simpa [early] using Nat.div_pos power (Nat.two_pow_pos _)

theorem honest_total (miner : List UInt8) (fits : subsidy height + fees.toNat < 2^64) :
    (honestCoinbase height fees miner).totalOutputValue.toNat = subsidy height + fees.toNat := by
  rw [honestCoinbase,coinbase_total,saturate_toNat]
  omega

theorem honest_valid (fits : subsidy height + fees.toNat < 2^64) :
    (honestCoinbase height fees miner).validate = .ok () ↔ 0 < subsidy height + fees.toNat := by
  constructor
  · intro valid
    have total := honest_total miner fits
    obtain ⟨_,_,positive⟩ := (Transaction.validate_exact _).mp valid
    have nonzero := positive _ (List.mem_singleton_self _)
    rw [honestCoinbase,coinbase_total] at total
    rw [← total,Nat.pos_iff_ne_zero]
    exact fun zero => nonzero (UInt64.toNat_inj.mp zero)
  · intro positive
    apply coinbase_valid
    intro zero
    have total := honest_total miner fits
    rw [honestCoinbase,coinbase_total,zero] at total
    exact absurd total (Nat.ne_of_lt positive)

theorem honest_reward (fits : subsidy height + fees.toNat < 2^64) :
    validateBlockReward height (honestCoinbase height fees miner) fees = .ok () :=
  validateBlockReward_exact.mpr ⟨fits,Nat.le_of_eq (honest_total miner fits)⟩

-- The value is checked at every height: above 0 always, and at height 0 where it is not zero.
theorem honest_applies (fits : subsidy height + fees.toNat < 2^64) :
    (∃ after, applyCoinbase c height (honestCoinbase height fees miner) utxoSet = .ok after) ↔
      0 < subsidy height + fees.toNat := by
  constructor
  · intro applied
    obtain ⟨after,applied⟩ := applied
    obtain ⟨_,checked,_⟩ := applyCoinbase_exact.mp applied
    by_cases start : height = 0
    · subst start
      have first : 0 < subsidy 0 := by decide
      omega
    · exact (honest_valid fits).mp (checked (.inl start))
  · intro positive
    exact ⟨_,applyCoinbase_exact.mpr ⟨rfl,fun _ => (honest_valid fits).mpr positive,rfl⟩⟩

theorem amount_positive : 0 < subsidy height + fees.toNat ↔ 0 < fees ∨ height / halvingIntervalBlocks < 34 := by
  rw [← subsidy_positive,UInt64.lt_iff_toNat_lt]
  change _ ↔ 0 < fees.toNat ∨ _
  omega

theorem coinbase_passes_exact (fits : subsidy height + fees.toNat < 2^64) :
    Passes c height fees miner ↔ 0 < fees ∨ height / halvingIntervalBlocks < 34 := by
  rw [← amount_positive]
  constructor
  · intro passes
    exact (honest_applies fits).mp (passes.coinbase ∅)
  · intro positive
    refine ⟨fun _ => (honest_applies fits).mpr positive,honest_reward fits,?_⟩
    intro none header utxoSet at_
    subst at_ none
    have ready : ∃ after, applyCoinbase c header.height (honestCoinbase header.height 0 miner) utxoSet = .ok after :=
      (honest_applies fits).mpr positive
    obtain ⟨after,applied⟩ := ready
    exact ⟨after,applyBlock_exact.mpr ⟨_,[],after,0,rfl,applied,rfl,honest_reward fits⟩⟩

theorem coinbase_passes_exact_first : Passes reference 1 0 [7] :=
  (coinbase_passes_exact (by decide)).mpr (.inr (by decide))

-- The first height without a subsidy, 34 halvings from genesis.
def exhaustedHeight : UInt64 := 34 * halvingIntervalBlocks

theorem exhausted_fails : 1 ≤ exhaustedHeight ∧ subsidy exhaustedHeight + (0 : UInt64).toNat < 2^64 ∧
    ¬ Passes reference exhaustedHeight 0 [7] := by
  refine ⟨by decide,by decide,?_⟩
  intro passes
  have fits : subsidy exhaustedHeight + (0 : UInt64).toNat < 2^64 := by decide
  exact absurd ((honest_applies fits).mp (passes.coinbase ∅)) (by decide)

theorem template_coinbase (made : node.createBlockTemplate c nextWorkBits values now miner = .ok template) :
    template.block.transactions = honestCoinbase (node.blockchain.currentHeight + 1)
      (node.mempool.getTransactionsForBlock c values now 1000000).2 miner ::
        (node.mempool.getTransactionsForBlock c values now 1000000).1 := by
  obtain ⟨_,_,_,_,_,_,rfl,transactions,_⟩ := createBlockTemplate_parts made
  exact transactions

-- With nothing selected from the pool, the mined template extends the chain
-- exactly while there is a subsidy.
theorem empty_template_exact (valid : Valid c node.blockchain)
    (made : node.createBlockTemplate c nextWorkBits values now miner = .ok template)
    (empty : node.mempool.getTransactionsForBlock c values now 1000000 = ([],0))
    (work : (template.mined nonce).hashValue c ≤ BlindHash.targetFromBits template.header.bits)
    (fresh : (template.mined nonce).hash c ∉ node.blockchain.blocks) :
    (∃ next, node.submitBlock c (template.mined nonce) = some (next,.ok ()) ∧
      next.blockchain.bestChain.getLast? = some ((template.mined nonce).hash c)) ↔
    (node.blockchain.currentHeight + 1) / halvingIntervalBlocks < 34 := by
  obtain ⟨tip,_,_,_,last,_,_,_,header⟩ := createBlockTemplate_parts made
  have transactions := template_coinbase made
  rw [empty] at transactions
  have height : (template.mined nonce).header.height = node.blockchain.currentHeight + 1 := by
    rw [BlockTemplate.mined,header]
  have onTip : node.blockchain.bestChain.getLast? = some (template.mined nonce).header.previousBlockHash := by
    rw [last,BlockTemplate.mined,header]
  have shape : template.mined nonce = ⟨(template.mined nonce).header,
      [honestCoinbase (node.blockchain.currentHeight + 1) 0 miner]⟩ := by rw [← transactions]; rfl
  have fits : subsidy (node.blockchain.currentHeight + 1) + (0 : UInt64).toNat < 2^64 :=
    (EmissionSchedule.default.blockReward _).toNat_lt
  rw [submitBlock_tip,tip_extension valid onTip (mined_admitted valid made work fresh),← subsidy_positive,shape]
  constructor
  · intro applies
    obtain ⟨after,applied⟩ := applies
    obtain ⟨_,_,mid,_,split,first,_,_⟩ := applyBlock_exact.mp applied
    obtain ⟨rfl,rfl⟩ := List.cons.inj split
    dsimp only at first
    rw [height] at first
    simpa using (honest_applies fits).mp ⟨mid,first⟩
  · intro paid
    have ready : ∃ mid, applyCoinbase c (node.blockchain.currentHeight + 1)
        (honestCoinbase (node.blockchain.currentHeight + 1) 0 miner) node.blockchain.utxoSet = .ok mid :=
      (honest_applies fits).mpr (Nat.lt_of_lt_of_le paid (Nat.le_add_right _ _))
    obtain ⟨mid,applied⟩ := ready
    rw [← height] at applied fits ⊢
    exact ⟨mid,applyBlock_exact.mpr ⟨_,[],mid,0,rfl,applied,rfl,honest_reward fits⟩⟩

end BlindEye.HonestCoinbase
