import FheBlockchain.Chain.AppendFacts
import FheBlockchain.Store.ChainstateKeys

namespace FheBlockchain.Chain.Accepted

open Core.Transactions Core.Blocks Store.ChainstateEffects Store.Pools Store.Coins Validation
open Store.Chainstate hiding M
open Store.ChainstateRewind Store.ChainstateKeys ValidationFacts Manager AppendFacts
open Library.Execution Library.Results

variable {env : Env} {cfg : Config} {s t : ChainManager} {wallet : Wallet}

def started (env : Env) (wallet : Wallet) (genesis : Block) : ChainManager where
  mainChain := {
    headerChain := [genesis.header]
    totalDifficulty := genesis.header.difficulty.toNat }
  forks := []
  chainstate := applyAll (blockEffects env.toSodium genesis 0) MemChainstate.empty
  blockStore := (MemBlockStore.storeBlock ∅ (genesis.hash env.toSodium) genesis).1
  memPool := .empty
  compStore := ∅
  wallet := wallet

theorem genesis_ok {na : Sodium} {timestamp : Int64} {difficulty : UInt32} {pubkey : PublicKey}
    {amount : UInt64} {genesis : Block}
    (h : Block.genesis na timestamp difficulty pubkey amount = .ok genesis) :
    genesis.transactions = [coinbaseTransaction pubkey amount 0] ∧
      ∃ txid, (coinbaseTransaction pubkey amount 0).txid na = .ok txid := by
  simp only [Block.genesis, List.mapM_cons, List.mapM_nil, bind_eq_ok] at h
  obtain ⟨txids, ⟨txid, htxid, -⟩, h⟩ := h
  obtain rfl := Except.ok.inj h
  exact ⟨rfl, txid, htxid⟩

theorem genesis_proven {na : Sodium} {timestamp : Int64} {difficulty : UInt32} {pubkey : PublicKey}
    {amount : UInt64} {genesis : Block}
    (h : Block.genesis na timestamp difficulty pubkey amount = .ok genesis) : Proven genesis := by
  simp only [Block.genesis, bind_eq_ok] at h
  obtain ⟨txids, -, h⟩ := h
  obtain rfl := Except.ok.inj h
  simp [Proven]

theorem genesis_takeable {na : Sodium} {timestamp : Int64} {difficulty : UInt32}
    {pubkey : PublicKey} {amount : UInt64} {genesis : Block}
    (h : Block.genesis na timestamp difficulty pubkey amount = .ok genesis) :
    Takeable na .empty genesis := by
  obtain ⟨htxs, hid⟩ := genesis_ok h
  refine ⟨fun tx htx ↦ ?_, genesis_proven h, ?_⟩
  · rw [htxs, List.mem_singleton] at htx
    exact htx ▸ hid
  · simp [Spendable, consumedBy, blockEffects, htxs, flagged, txEffect]

theorem keyed_genesis {genesis : Block}
    (hgen : Block.genesis env.toSodium cfg.timestamp cfg.difficulty cfg.publicKey cfg.reward =
      .ok genesis) :
    (createdIn env.toSodium [genesis]).Nodup ∧
      Keyed (started env wallet genesis).chainstate (createdIn env.toSodium [genesis])
        (consumedIn env.toSodium [genesis]) := by
  obtain ⟨htxs, -⟩ := genesis_ok hgen
  have hnd : (createdIn env.toSodium [genesis]).Nodup := by
    simp only [createdIn, chainTxs, List.flatMap_cons, List.flatMap_nil, htxs, flagged,
      List.map_nil, List.append_nil]
    exact createdByTx_nodup _ (by simp [coinbaseTransaction])
  have hcreated := createdIn_append env.toSodium [] genesis 0
  have hconsumed := consumedIn_append env.toSodium [] genesis 0
  simp only [List.nil_append] at hcreated hconsumed
  refine ⟨hnd, ?_⟩
  rw [hcreated] at hnd
  rw [hcreated, hconsumed]
  exact keyed_empty.step (genesis_takeable hgen).spendable hnd

theorem create_ok (h : create env cfg wallet = .ok s) :
    ∃ genesis, Block.genesis env.toSodium cfg.timestamp cfg.difficulty cfg.publicKey cfg.reward =
      .ok genesis ∧ s = started env wallet genesis := by
  rw [create, bind_eq_ok] at h
  obtain ⟨genesis, hgen, h⟩ := h
  have hadd := (genesis_takeable hgen).addBlock_run 0
  refine ⟨genesis, hgen, ?_⟩
  split_ifs at h
  · contradiction
  · simp only [hadd] at h
    exact (Except.ok.inj h).symm

/-- Blocks that `append_block(block, false)` has accepted one after the other.
Between two calls everything but the chain and its chainstate may change, and
`P` is asked of each block at its chainstate and height. -/
inductive AcceptedRun (env : Env) (cfg : Config) (P : MemChainstate → Block → ℕ → Prop)
    (s : ChainManager) : List Block → ChainManager → Prop
  | start : AcceptedRun env cfg P s [] s
  | append {blocks : List Block} {block : Block} {t t' u : ChainManager} :
      AcceptedRun env cfg P s blocks t → t'.mainChain = t.mainChain → t'.chainstate = t.chainstate →
      P t.chainstate block t.mainChain.headerChain.length →
      appendBlock env cfg block none t' = .ok true u →
      AcceptedRun env cfg P s (blocks ++ [block]) u

section Check

variable (P : MemChainstate → Block → ℕ → Prop) [∀ cs block height, Decidable (P cs block height)]

/-- Hands blocks to `append_block(block, false)` as long as `P` holds of them
and they are accepted. -/
def acceptAll (env : Env) (cfg : Config) : List Block → ChainManager → Option ChainManager
  | [], s => some s
  | block :: blocks, s =>
    if P s.chainstate block s.mainChain.headerChain.length then
      match appendBlock env cfg block none s with
      | .ok true t => acceptAll env cfg blocks t
      | _ => none
    else none

variable {P}

theorem acceptAll_run {blocks : List Block} (h : acceptAll P env cfg blocks s = some t) :
    AcceptedRun env cfg P s blocks t := by
  suffices hgen : ∀ {s₀ bs s}, AcceptedRun env cfg P s₀ bs s → acceptAll P env cfg blocks s = some t →
      AcceptedRun env cfg P s₀ (bs ++ blocks) t from hgen .start h
  clear h
  induction blocks with
  | nil =>
    intro s₀ bs s hrun h
    cases h
    rwa [List.append_nil]
  | cons block blocks ih =>
    intro s₀ bs s hrun h
    rw [acceptAll] at h
    split_ifs at h with hP
    split at h
    next u happ =>
      have := ih (.append hrun rfl rfl hP happ) h
      rwa [List.append_assoc] at this
    · contradiction

end Check

section Sample

open Library.BigEndian

def sampleHash (data : Bytes) : ℕ :=
  data.foldl (fun acc b ↦ (acc * 257 + b.toNat + 1) % (2 ^ 61 - 1)) 7

def sampleEnv : Env where
  generichash data := ⟨(bigEndian 32 (sampleHash data)).toArray, by simp⟩
  signVerifyDetached _ _ _ := true
  verifyProof _ _ := .ok true
  verifyProof_throw _ _ _ h := by cases h
  retarget _ _ difficulty := difficulty

def sampleKey : PublicKey := Vector.replicate 32 0

def sampleWallet : Wallet where
  publicKey := Vector.replicate 32 1
  coins := ∅

def sampleGenesis : Block :=
  (Block.genesis sampleEnv.toSodium 0 1 sampleKey 50).toOption.getD ⟨⟨none, [], [], 0, 0, []⟩, []⟩

def sampleConfig : Config where
  reward := 50
  difficulty := 1
  publicKey := sampleKey
  timestamp := 0
  hash := sampleGenesis.hash sampleEnv.toSodium
  secondsPerBlock := 10
  blocksPerEpoch := 100
  defaultTxPerBlock := 10

def sampleBlock (prev : Block) (timestamp : Int64) (txs : List Transaction) : Block where
  header := {
    prevBlockHeader := none
    ownPrevHash := prev.hash sampleEnv.toSodium
    merkleRoot :=
      let txids := (txs.mapM (Transaction.txid sampleEnv.toSodium)).toOption.getD []
      Merkle.computeRoot sampleEnv.toSodium txids.length txids
    timestamp := timestamp
    difficulty := 1
    computations := [⟨[], [], [1], 1⟩] }
  transactions := txs

def arriving (prev : Block) (timestamp : Int64) : Block :=
  sampleBlock prev timestamp [coinbaseTransaction sampleKey 50 timestamp.toUInt64.toUInt32]

def firstBlock : Block := sampleBlock sampleGenesis 1 [coinbaseTransaction sampleKey 50 1]

def sampleStart : ChainManager := started sampleEnv sampleWallet sampleGenesis

theorem genesis_sample : Block.genesis sampleEnv.toSodium sampleConfig.timestamp
    sampleConfig.difficulty sampleConfig.publicKey sampleConfig.reward = .ok sampleGenesis := by
  decide +kernel

theorem create_sample : create sampleEnv sampleConfig sampleWallet = .ok sampleStart := by
  have hok : (create sampleEnv sampleConfig sampleWallet).isOk = true := by decide +kernel
  cases h : create sampleEnv sampleConfig sampleWallet with
  | error e =>
    rw [h] at hok
    exact absurd hok Bool.false_ne_true
  | ok s =>
    obtain ⟨genesis, hgen', rfl⟩ := create_ok h
    rw [genesis_sample] at hgen'
    obtain rfl := Except.ok.inj hgen'
    rfl

end Sample

end FheBlockchain.Chain.Accepted
