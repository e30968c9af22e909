import BlindEye.HeightDiscipline
import BlindEye.LedgerRules

namespace BlindEye.Supply
open AddBlock ChainState HeightDiscipline LedgerRules Emission

variable {c : Crates} {s next : Blockchain} {block : Block} {chain : List Digest} {utxoSet after : UtxoSet}

-- No output total of the block reaches 2^64, where `sum` wraps.
def Exact (block : Block) : Prop := ∀ tx ∈ block.transactions, outputTotal tx < 2^64
def ExactOn (s : Blockchain) (chain : List Digest) : Prop := ∀ k ∈ chain, ∀ b, s.getBlock k = some b → Exact b
instance : Decidable (Exact block) := inferInstanceAs (Decidable (∀ tx ∈ block.transactions, outputTotal tx < 2^64))

-- A chain that becomes the best one has one genesis block, and no sum wraps on it.
def SupplySafe (c : Crates) (s : Blockchain) (block : Block) : Prop :=
  ∀ chain, Adopts c s block chain → OneGenesis (s.store c block) chain ∧ ExactOn (s.store c block) chain

instance : Decidable (ExactOn s chain) := inferInstanceAs (Decidable (∀ k ∈ chain, ∀ b ∈ s.getBlock k, Exact b))

instance : Decidable (SupplySafe c s block) :=
  inferInstanceAs (Decidable (∀ chain, Adopts c s block chain → OneGenesis (s.store c block) chain ∧ _))

theorem exact_total (exact : outputTotal tx < 2^64) : tx.totalOutputValue.toNat = outputTotal tx := by
  rw [totalOutputValue_wraps,Nat.mod_eq_of_lt exact]

theorem payment_supply (paid : validateTransactionAgainstUtxoSet c tx utxoSet = .ok fee)
    (exact : outputTotal tx < 2^64) :
    coins (applyTransaction c tx utxoSet height) + fee.toNat ≤ coins utxoSet := by
  obtain ⟨distinct,present⟩ := paid_present paid
  obtain ⟨_,_,_,balance⟩ := validateTransaction_exact.mp paid
  rw [exact_total exact] at balance
  have moved := coins_applyTransaction c height distinct present
  omega

theorem coinbase_supply (coinbase : tx.inputs = []) :
    coins (applyTransaction c tx utxoSet height) ≤ coins utxoSet + outputTotal tx := by
  have spends : tx.spends = [] := by simp [Transaction.spends,coinbase]
  have distinct : tx.spends.Nodup := by simp [spends]
  have present : ∀ o ∈ tx.spends, o ∈ utxoSet := by simp [spends]
  have moved := coins_applyTransaction c height distinct present
  omega

theorem block_supply (exact : Exact block) (applied : applyBlockToUtxoSet c block utxoSet = .ok after) :
    coins after ≤ coins utxoSet + subsidy block.header.height := by
  obtain ⟨coinbase,payments,mid,fees,transactions,first,rest,reward⟩ := applyBlock_exact.mp applied
  obtain ⟨noInputs,_,rfl⟩ := applyCoinbase_exact.mp first
  have made : coins (applyTransaction c coinbase utxoSet block.header.height) ≤ coins utxoSet + outputTotal coinbase :=
    coinbase_supply noInputs
  have collected : coins after + fees.toNat ≤
      coins (applyTransaction c coinbase utxoSet block.header.height) := by
    refine Fallible.fold_invariant (motive := fun state _ => coins state.1 + state.2.toNat ≤
      coins (applyTransaction c coinbase utxoSet block.header.height)) (Nat.le_refl _) ?_ rest
    intro before tx later state state' split bound step
    obtain ⟨_,⟨fee,paid,sum⟩,moved⟩ := applyPayment_exact.mp step
    have member : tx ∈ block.transactions := by rw [transactions,split]; simp
    have paidOut : coins (applyTransaction c tx state.1 block.header.height) + fee.toNat ≤ coins state.1 :=
      payment_supply paid (exact tx member)
    rw [moved,sum]
    omega
  have capped := (validateBlockReward_exact.mp reward).2
  rw [exact_total (exact coinbase (by rw [transactions]; simp))] at capped
  omega

theorem genesis_supply : coins (applyTransaction c Blockchain.genesisTx utxoSet 0) ≤ coins utxoSet :=
  coinbase_supply rfl

theorem replay_supply (valid : Valid c s) (exact : ExactOn s chain) (heights : HeightsFrom s chain)
    (head : chain.head? = some s.genesisHash)
    (built : s.buildUtxoStateForChain c chain = .ok after) : coins after ≤ subsidyThrough (chain.length - 1) := by
  refine Fallible.fold_invariant (motive := fun utxoSet done => coins utxoSet ≤ subsidyThrough (done.length - 1))
    ?_ ?_ built
  · rw [valid.bootstrap]; exact Nat.zero_le _
  · intro before k later utxoSet next split bound step
    obtain ⟨b,stored,applied⟩ := applyStored_exact.mp step
    have position : chain[before.length]? = some k := by rw [split]; simp
    obtain ⟨b',stored',height⟩ := heights _ _ position
    cases Option.some.inj (stored.symm.trans stored')
    cases before with
    | nil =>
      have root : k = s.genesisHash := by simpa [split] using head
      subst root
      cases Option.some.inj (stored.symm.trans valid.genesis)
      rw [genesis_applies] at applied
      cases applied
      exact Nat.le_trans genesis_supply bound
    | cons first rest =>
      have grown := block_supply (exact k (by rw [split]; simp) b stored) applied
      have same : b.header.height = UInt64.ofNat (rest.length + 1) := by
        rw [← UInt64.toNat_inj,height,UInt64.toNat_ofNat_of_lt']
        · rfl
        · have small := b.header.height.toNat_lt
          rw [height] at small
          exact small
      have next : subsidyThrough (rest.length + 1) = subsidyThrough rest.length + subsidy b.header.height := by
        rw [same]; exact Finset.sum_range_succ _ _
      simp only [List.length_append,List.length_cons,List.length_nil,Nat.add_sub_cancel] at bound ⊢
      omega

theorem new_exactOn (c : Crates) : ExactOn (.new c) (Blockchain.new c).bestChain := by
  intro k member b stored tx inside
  obtain rfl := List.mem_singleton.mp member
  cases Option.some.inj ((new_valid c).genesis.symm.trans stored)
  obtain rfl : tx = Blockchain.genesisTx := List.mem_singleton.mp inside
  decide

theorem ExactOn.grows (exact : ExactOn s chain) (grows : Grows s next) (stored : Stored s chain) :
    ExactOn next chain := by
  intro k member b found
  rw [grows.same stored k member] at found
  exact exact k member b found

theorem reached_safe (reached : Reached c (SupplySafe c) s) : OneGenesis s s.bestChain ∧ ExactOn s s.bestChain :=
  reached_best (motive := fun s chain => OneGenesis s chain ∧ ExactOn s chain) ⟨new_oneGenesis c,new_exactOn c⟩
    (fun grows stored safe => ⟨safe.1.grows grows stored,safe.2.grows grows stored⟩)
    (fun _ _ chain safe adopts => safe chain adopts) reached

theorem reached_supply (reached : Reached c (SupplySafe c) s) :
    coins s.utxoSet ≤ subsidyThrough (s.bestChain.length - 1) ∧ coins s.utxoSet ≤ Protocol.maxSupplyUnits.toNat := by
  have valid := reached_valid reached
  obtain ⟨single,exact⟩ := reached_safe reached
  have disciplined := (disciplined_exact reached).mpr single
  obtain ⟨tip,_,branch,_,_⟩ := valid.tip
  have issued := replay_supply valid exact disciplined.heights branch.head valid.replay
  have short : s.bestChain.length - 1 < 2^64 := disciplined.current ▸ s.currentHeight.toNat_lt
  exact ⟨issued,Nat.le_trans issued (subsidyThrough_le short)⟩

theorem reached_supply_payBlock : ∃ s : Blockchain, coins s.utxoSet = 10000000100 ∧
    coins s.utxoSet ≤ subsidyThrough 2 ∧ coins s.utxoSet ≤ Protocol.maxSupplyUnits.toNat := by
  have fed : (Runs.feed (fun s block => if SupplySafe reference s block then s.addBlock reference block else none)
      genesisState [earnBlock,payBlock]).map (fun pair => (coins pair.1.utxoSet,pair.1.bestChain.length)) =
      some (10000000100,3) := by decide +kernel
  obtain ⟨⟨s,answers⟩,ran,equal⟩ := Option.map_eq_some_iff.mp fed
  obtain ⟨worth,length⟩ := Prod.mk.inj equal
  obtain ⟨issued,capped⟩ := reached_supply ⟨_,(Runs.feed_run ran).1.guarded⟩
  rw [length] at issued
  exact ⟨s,worth,issued,capped⟩

def wrappingBlock : Block := blockOn genesisState.genesisHash 1 [wrappingCoinbase]

theorem wrappingBlock_inflates : ∃ s, Reachable reference s ∧ s.bestChain.length = 2 ∧
    Protocol.maxSupplyUnits.toNat < coins s.utxoSet := by
  have ran : (genesisState.addBlock reference wrappingBlock).map
      (fun pair => (pair.1.bestChain.length,decide (Protocol.maxSupplyUnits.toNat < coins pair.1.utxoSet))) =
      some (2,true) := by decide +kernel
  obtain ⟨⟨s,answer⟩,step,equal⟩ := Option.map_eq_some_iff.mp ran
  obtain ⟨length,more⟩ : s.bestChain.length = 2 ∧ Protocol.maxSupplyUnits.toNat < coins s.utxoSet := by
    simpa using equal
  exact ⟨s,⟨_,.step .nil trivial step⟩,length,more⟩

end BlindEye.Supply
