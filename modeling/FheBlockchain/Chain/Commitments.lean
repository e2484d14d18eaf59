import FheBlockchain.Chain.Replay

namespace FheBlockchain.Chain.Commitments

open Core.Transactions Core.Blocks Store.Pools Validation ValidationFacts Manager AppendFacts
open Accepted Exceptions ReorgFacts Placement Node Replay
open Store.Chainstate hiding M addBlock
open Library.Execution Library.Results

variable {env : Env} {cfg : Config} {s t : ChainManager} {block : Block}

def Committed (na : Sodium) (block : Block) : Prop :=
  ∃ txids, block.transactions.mapM (Transaction.txid na) = .ok txids ∧
    block.header.merkleRoot = Merkle.computeRoot na txids.length txids

def Matching (env : Env) (store : MemBlockStore) : Prop :=
  ∀ k b, store.lookup k = some b → k = b.hash env.toSodium ∧ Committed env.toSodium b

/-- A block that `add_block` puts on a fork, where only its header is checked. -/
def TakenByFork (env : Env) (cfg : Config) (s : ChainManager) (block : Block) : Prop :=
  OffMain env s block none ∧ ∃ fork, ForkTakes env cfg fork block.header ∧
    ((∃ k, findFork env block.header 0 s.forks = some (k, fork)) ∨
      findFork env block.header 0 s.forks = none ∧ ∃ i src total,
        findAttachment env block.header 0 0 s.mainChain.headerChain = some (i, src, total) ∧
        fork = newFork i src total)

def ForksCommitted (env : Env) (cfg : Config) : ChainManager → Event → Prop
  | s, .block block mined => mined = none ∧
      (TakenByFork env cfg s block → s.blockStore.lookup (block.hash env.toSodium) = none →
        Committed env.toSodium block)
  | _, _ => False

theorem Matching.storeBlock {store : MemBlockStore} (block : Block) (h : Matching env store)
    (hb : store.lookup (block.hash env.toSodium) = none → Committed env.toSodium block) :
    Matching env (store.storeBlock (block.hash env.toSodium) block).1 := by
  intro k b hk
  rcases storeBlock_cases hk with hold | ⟨hnone, rfl, rfl⟩
  · exact h k b hold
  · exact ⟨rfl, hb hnone⟩

theorem committed_of_ready {head : BlockHeader} {txs : List PooledTx}
    (h : Ready env cfg s block none head txs) : Committed env.toSodium (link env head block) := by
  obtain ⟨txids, hids, hroot⟩ := validateBlock_root h.checked
  exact ⟨txids, hids, hroot⟩

theorem post_append_matching (h : Matching env s.blockStore) :
    Post (appendBlock env cfg block none) s (fun _ t ↦ Matching env t.blockStore)
      (fun _ t ↦ Matching env t.blockStore) := by
  refine post_append_identified (by simp) h (fun _ _ ↦ h) fun head txs cs pool hr ↦ ?_
  have hstore := Matching.storeBlock (link env head block) h fun _ ↦ committed_of_ready hr
  exact ⟨hstore, fun _ _ ↦ hstore⟩

theorem post_handle_matching (h : Matching env s.blockStore) {event : Event}
    (hc : ForksCommitted env cfg s event) :
    Post (handle env cfg event) s (fun _ t ↦ Matching env t.blockStore)
      (fun _ t ↦ Matching env t.blockStore) := by
  cases event with
  | tx => exact absurd hc not_false
  | computation => exact absurd hc not_false
  | block block mined =>
    obtain ⟨rfl, hc⟩ := hc
    have hfork {head : BlockHeader} (hin : TakenByFork env cfg s block) :
        Matching env (withStored env s (link env head block)).blockStore :=
      Matching.storeBlock (link env head block) h fun hnone ↦ hc hin hnone
    refine post_addBlock (Q := fun t ↦ Matching env t.blockStore) h (fun _ _ _ ht ↦ ht)
      (fun _ ↦ (post_append_matching h).mono (fun _ _ ht _ ↦ ht) fun _ _ ht ↦ ht)
      (fun k fork hoff hfind hvalid ↦ ?_) fun i src total hoff hfind hatt hvalid ↦ ?_
    · have hin : TakenByFork env cfg s block := ⟨hoff, fork, hvalid, .inl ⟨k, hfind⟩⟩
      exact ⟨fun _ ↦ hfork hin, fun _ ↦
        post_reorg_store (fun t _ b ht _ ↦ post_append_matching ht) (hfork hin)⟩
    · exact hfork ⟨hoff, _, hvalid, .inr ⟨hfind, i, src, total, hatt, rfl⟩⟩

theorem committed_genesis {genesis : Block}
    (h : Block.genesis env.toSodium cfg.timestamp cfg.difficulty cfg.publicKey cfg.reward =
      .ok genesis) : Committed env.toSodium genesis := by
  rw [Block.genesis, bind_eq_ok] at h
  obtain ⟨txids, hids, he⟩ := h
  obtain rfl := Except.ok.inj he
  exact ⟨txids, hids, rfl⟩

/-- When the blocks that forks store match their headers, all stored blocks do. -/
theorem stored_blocks_match {wallet : Store.Coins.Wallet} (hs : create env cfg wallet = .ok s)
    (hrun : Run env cfg (ForksCommitted env cfg) s t) : Matching env t.blockStore := by
  refine hrun.invariant (I := fun t ↦ Matching env t.blockStore) ?_
    fun _ _ h hc ↦ post_handle_matching h hc
  obtain ⟨genesis, hgen, rfl⟩ := create_ok hs
  intro k b hk
  rw [started_lookup] at hk
  split_ifs at hk with heq
  obtain rfl := Option.some.inj hk
  exact ⟨heq, committed_genesis hgen⟩

def rivals : List Block := [firstBlock, arriving sampleGenesis 2]

theorem committed_rivals : ∀ b ∈ rivals, Committed sampleEnv.toSodium b := by
  have hids : ∀ b ∈ rivals, ∃ txids ∈ (b.transactions.mapM
      (Transaction.txid sampleEnv.toSodium)).toOption,
      b.header.merkleRoot = Merkle.computeRoot sampleEnv.toSodium txids.length txids := by
    decide +kernel
  intro b hb
  obtain ⟨txids, htxids, hroot⟩ := hids b hb
  exact ⟨txids, of_toOption htxids, hroot⟩

theorem stored_blocks_match_rivals : ∃ t,
    handleAll Received sampleEnv sampleConfig (rivals.map (.block · none)) sampleStart = some t ∧
      t.forks.map (fun f ↦ f.headerChain.length) = [1] ∧ Matching sampleEnv t.blockStore := by
  have hrun : (handleAll Received sampleEnv sampleConfig (rivals.map (.block · none))
      sampleStart).map (fun t ↦ t.forks.map fun f ↦ f.headerChain.length) = some [1] := by
    decide +kernel
  obtain ⟨t, ht, hforks⟩ := Option.map_eq_some_iff.mp hrun
  refine ⟨t, ht, hforks, stored_blocks_match create_sample
    (handleAll_run_of .start (fun event hevent u _ ↦ ?_) ht)⟩
  obtain ⟨b, hb, rfl⟩ := List.mem_map.mp hevent
  exact ⟨rfl, fun _ _ ↦ committed_rivals b hb⟩

def emptied (block : Block) : Block := { block with transactions := [] }

theorem emptied_block_stored :
    ¬ ∀ (env : Env) (cfg : Config) (wallet : Store.Coins.Wallet) (s t : ChainManager),
      create env cfg wallet = .ok s → Run env cfg Received s t → Matching env t.blockStore := by
  intro h
  let rival := sampleBlock sampleGenesis 2 [coinbaseTransaction sampleKey 50 1]
  have hrun : (handleAll Received sampleEnv sampleConfig
      [.block firstBlock none, .block (emptied rival) none] sampleStart).map
      (fun t ↦ (t.blockStore.lookup (rival.hash sampleEnv.toSodium)).map fun b ↦
        (b.transactions.isEmpty, b.header.merkleRoot.isEmpty)) = some (some (true, false)) := by
    decide +kernel
  obtain ⟨t, ht, hstored⟩ := Option.map_eq_some_iff.mp hrun
  obtain ⟨b, hb, hbody⟩ := Option.map_eq_some_iff.mp hstored
  obtain ⟨htxs, hnonempty⟩ := Prod.mk.inj hbody
  obtain ⟨txids, hids, hroot⟩ := (h _ _ _ _ t create_sample (handleAll_run .start ht) _ b hb).2
  rw [List.isEmpty_iff.mp htxs] at hids
  obtain rfl : [] = txids := Except.ok.inj hids
  rw [hroot] at hnonempty
  exact absurd hnonempty.symm Bool.false_ne_true

end FheBlockchain.Chain.Commitments
