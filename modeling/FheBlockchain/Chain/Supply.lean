import FheBlockchain.Chain.Accepted
import FheBlockchain.Core.Amounts

namespace FheBlockchain.Chain.Supply

open Core.Transactions Core.Amounts Core.Blocks Store.ChainstateEffects Store.Pools Store.Coins Validation
open Store.Chainstate hiding M
open ValidationFacts Manager AppendFacts Accepted
open Library.Execution Library.FiniteMap Library.Results

variable {env : Env} {cfg : Config} {cs : MemChainstate} {s t : ChainManager}

def outTotal (tx : Transaction) : ℕ := (tx.outAmounts.map UInt64.toNat).sum

def inTotal (cs : MemChainstate) (tx : Transaction) : ℕ := valueAt amountOf cs (keysOf tx)

def rewardAt (cfg : Config) (height : ℕ) : ℕ :=
  ((rewardForHeight cfg (UInt32.ofNat height)).toOption.getD 0).toNat

theorem sum_outputsOf (txid : Bytes) (height : UInt32) (isCb : Bool) (vout : ℕ)
    (outputs : List TransactionOutput) :
    ((outputsOf txid height isCb vout outputs).map fun out ↦ amountOf out.2).sum =
      (outputs.map fun outp ↦ outp.amount.toNat).sum := by
  induction outputs generalizing vout with
  | nil => rfl
  | cons outp outputs ih =>
    rw [outputsOf, List.map_cons, List.sum_cons, ih, List.map_cons, List.sum_cons, amountOf]

theorem sum_createdBy (na : Sodium) (block : Block) (height : UInt32) :
    ((createdBy (blockEffects na block height)).map fun out ↦ amountOf out.2).sum =
      (block.transactions.map outTotal).sum := by
  have htx (tx : Bool × Transaction) :
      ((txEffect na height tx).created.map fun out ↦ amountOf out.2).sum = outTotal tx.2 := by
    simp [txEffect, sum_outputsOf, outTotal, Transaction.outAmounts, Function.comp_def]
  have htxs (txs : List (Bool × Transaction)) :
      ((createdBy (txs.map (txEffect na height))).map fun out ↦ amountOf out.2).sum =
        (txs.map fun tx ↦ outTotal tx.2).sum := by
    induction txs with
    | nil => rfl
    | cons tx txs ih =>
      simp only [createdBy, List.map_cons, List.flatMap_cons, List.map_append, List.sum_append,
        List.sum_cons] at ih ⊢
      rw [htx, ih]
  rw [blockEffects, htxs]
  cases block.transactions with
  | nil => rfl
  | cons cb rest => simp [flagged, Function.comp_def]

theorem valueAt_flatMap (txs : List Transaction) :
    valueAt amountOf cs (txs.flatMap keysOf) = (txs.map (inTotal cs)).sum := by
  induction txs with
  | nil => rfl
  | cons tx txs ih =>
    rw [List.flatMap_cons, List.map_cons, List.sum_cons, ← ih]
    simp [inTotal, valueAt]

theorem sum_found {inputs : List TransactionInput} {recs : List UTXORecord}
    (h : Found cs inputs recs) :
    valueAt amountOf cs (inputs.map TransactionInput.key) =
      ((recs.map UTXORecord.amount).map UInt64.toNat).sum := by
  induction h with
  | nil => rfl
  | cons hrec _ ih =>
    simp only [valueAt, List.map_cons, List.sum_cons, hrec, Option.elim_some] at ih ⊢
    rw [ih, amountOf]

theorem wrapped_le {tx : Transaction} {c : CheckedTx} (h : TxChecked env cs tx c) :
    outTotal tx % 2 ^ 64 ≤ inTotal cs tx % 2 ^ 64 := by
  obtain ⟨recs, hfound, hamounts, -⟩ := h.found
  have hfee := h.fee_eq
  rw [PooledTx.fee, Transaction.fee] at hfee
  split_ifs at hfee with hlt
  have hle := UInt64.le_iff_toNat_le.mp (UInt64.not_lt.mp hlt)
  rwa [toNat_total, toNat_total, worth, worth, hamounts, ← sum_found hfound, h.tx_eq] at hle

def WithinReward (cfg : Config) (cs : MemChainstate) (block : Block) (height : ℕ) : Prop :=
  (block.transactions.map outTotal).sum ≤
    rewardAt cfg height + (block.transactions.tail.map (inTotal cs)).sum

/-- A block within the reward whose other transactions carry no further past 64
bits on the side of their outputs than on that of their inputs. -/
def Bounded (cfg : Config) (cs : MemChainstate) (block : Block) (height : ℕ) : Prop :=
  WithinReward cfg cs block height ∧
    ∀ tx ∈ block.transactions.tail, outTotal tx / 2 ^ 64 ≤ inTotal cs tx / 2 ^ 64

instance (height : ℕ) (block : Block) : Decidable (Bounded cfg cs block height) :=
  inferInstanceAs (Decidable (_ ≤ _ ∧ ∀ tx ∈ block.transactions.tail, _))

def Conserving (cfg : Config) (cs : MemChainstate) (block : Block) (height : ℕ) : Prop :=
  WithinReward cfg cs block height ∧ ∀ tx ∈ block.transactions.tail, outTotal tx ≤ inTotal cs tx

theorem conserving_of_ready {block : Block} {head : BlockHeader} {txs : List PooledTx}
    (h : Ready env cfg s block none head txs) {height : ℕ}
    (hb : Bounded cfg s.chainstate block height) : Conserving cfg s.chainstate block height := by
  obtain ⟨cb, rest, cks, hc, -⟩ := validateBlock_some h.checked
  refine ⟨hb.1, fun tx htx ↦ ?_⟩
  have hcarry := hb.2 tx htx
  rw [hc.transactions, List.tail_cons] at htx
  obtain ⟨c, -, hck⟩ := exists_of_forall₂ hc.checked htx
  have hwrap := wrapped_le hck
  have hout := Nat.div_add_mod (outTotal tx) (2 ^ 64)
  have hin := Nat.div_add_mod (inTotal s.chainstate tx) (2 ^ 64)
  have hmul := Nat.mul_le_mul_left (2 ^ 64) hcarry
  omega

theorem supply_step {block : Block} {head : BlockHeader} {txs : List PooledTx}
    (h : Ready env cfg s block none head txs) {height : ℕ}
    (hw : WithinReward cfg s.chainstate block height) :
    total amountOf (applyAll (nextEffects env s block) s.chainstate).storage ≤
      total amountOf s.chainstate.storage + rewardAt cfg height := by
  obtain ⟨cb, rest, cks, hc, -⟩ := validateBlock_some h.checked
  have happ := total_applyAll amountOf
    (hc.spendable (UInt32.ofNat s.mainChain.headerChain.length))
  rw [BlockChecked.consumedBy_blockEffects _ _ hc.transactions, valueAt_flatMap, sum_createdBy]
    at happ
  rw [WithinReward, hc.transactions, List.tail_cons] at hw
  rw [hc.transactions] at happ
  rw [nextEffects]
  omega

theorem supply_genesis {genesis : Block} {wallet : Wallet}
    (h : Block.genesis env.toSodium cfg.timestamp cfg.difficulty cfg.publicKey cfg.reward =
      .ok genesis) :
    total amountOf (started env wallet genesis).chainstate.storage ≤ cfg.reward.toNat := by
  obtain ⟨htxs, -⟩ := genesis_ok h
  have hcons : consumedBy (blockEffects env.toSodium genesis 0) = [] := by
    simp [consumedBy, blockEffects, htxs, flagged, txEffect]
  have happ := @total_applyAll amountOf MemChainstate.empty
    (blockEffects env.toSodium genesis 0) ⟨by simp [hcons], by simp [hcons]⟩
  have hzero : total amountOf MemChainstate.empty.storage = 0 := by
    simp [total, MemChainstate.empty]
  rw [sum_createdBy, htxs, hzero] at happ
  have hone : outTotal (coinbaseTransaction cfg.publicKey cfg.reward 0) = cfg.reward.toNat := by
    simp [outTotal, Transaction.outAmounts, coinbaseTransaction]
  simp only [List.map_cons, List.map_nil, List.sum_cons, List.sum_nil, hone] at happ
  exact (Nat.le_add_right _ _).trans (happ.trans (by omega))

/-- In a run of bounded blocks the unspent outputs are worth at most all the
rewards up to the tip, and each of its blocks conserves value. -/
theorem supply_bound {wallet : Wallet} {blocks : List Block}
    (hs : create env cfg wallet = .ok s) (hrun : AcceptedRun env cfg (Bounded cfg) s blocks t) :
    total amountOf t.chainstate.storage ≤
      cfg.reward.toNat + ((List.range blocks.length).map fun h ↦ rewardAt cfg (h + 1)).sum ∧
    AcceptedRun env cfg (Conserving cfg) s blocks t := by
  have hlen : t.mainChain.headerChain.length = blocks.length + 1 := by
    obtain ⟨genesis, -, rfl⟩ := create_ok hs
    induction hrun with
    | start => rfl
    | append _ hmain _ _ happ ih =>
      obtain ⟨head, txs, pool, -, rfl⟩ := appendBlock_true happ
      simp [extended, recorded, pushed, hmain, ih]
  induction hrun with
  | start =>
    obtain ⟨genesis, hgen, rfl⟩ := create_ok hs
    exact ⟨by simpa using supply_genesis hgen, .start⟩
  | @append blocks block t t' u hrun hmain hcs hb happ ih =>
    obtain ⟨head, txs, pool, hr, rfl⟩ := appendBlock_true happ
    have hlen' : t.mainChain.headerChain.length = blocks.length + 1 := by
      simpa [extended, recorded, pushed, hmain] using hlen
    obtain ⟨hbound, hcons⟩ := ih hlen'
    rw [← hcs] at hb
    have hstep := supply_step hr hb.1
    refine ⟨?_, .append hcons hmain hcs (hcs ▸ conserving_of_ready hr hb) happ⟩
    rw [List.length_append, List.length_singleton, List.range_succ, List.map_append, List.sum_append]
    rw [hlen', hcs] at hstep
    simp only [List.map_cons, List.map_nil, List.sum_cons, List.sum_nil] at hstep ⊢
    change total amountOf (applyAll (nextEffects env t' block) t'.chainstate).storage ≤ _
    rw [hcs]
    omega

/-- The second block spends the first coinbase and claims the fee. -/
def honest : List Block :=
  let pay := spending sampleEnv.toSodium (coinbaseTransaction sampleKey 50 1) [20, 27]
  [firstBlock, sampleBlock firstBlock 2 [coinbaseTransaction sampleKey 53 2, pay]]

theorem honest_supply_bound : ∃ t, acceptAll (Bounded sampleConfig) sampleEnv sampleConfig honest
      sampleStart = some t ∧ total amountOf t.chainstate.storage ≤
    sampleConfig.reward.toNat + ((List.range 2).map fun h ↦ rewardAt sampleConfig (h + 1)).sum := by
  have hsome : (acceptAll (Bounded sampleConfig) sampleEnv sampleConfig honest
      sampleStart).isSome = true := by decide +kernel
  obtain ⟨t, ht⟩ := Option.isSome_iff_exists.mp hsome
  exact ⟨t, ht, (supply_bound create_sample (acceptAll_run ht)).1⟩

def overpaid : Block := sampleBlock sampleGenesis 1 [coinbaseTransaction sampleKey 1000 1]

theorem overpaid_accepted :
    ¬ ∀ (env : Env) (cfg : Config) (wallet : Wallet) (s t : ChainManager) (blocks : List Block),
      create env cfg wallet = .ok s → AcceptedRun env cfg (fun _ _ _ ↦ True) s blocks t →
      total amountOf t.chainstate.storage ≤
        cfg.reward.toNat + ((List.range blocks.length).map fun h ↦ rewardAt cfg (h + 1)).sum := by
  intro h
  have hrun : (acceptAll (fun _ _ _ ↦ True) sampleEnv sampleConfig [overpaid] sampleStart).map
      (fun t ↦ total amountOf t.chainstate.storage) = some 1050 := by decide +kernel
  obtain ⟨t, ht, htotal⟩ := Option.map_eq_some_iff.mp hrun
  have hle := h _ _ _ _ t _ create_sample (acceptAll_run ht)
  rw [htotal] at hle
  revert hle
  decide +kernel

end FheBlockchain.Chain.Supply
