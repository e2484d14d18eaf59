import FheBlockchain.Chain.Delivery
import FheBlockchain.Chain.PoolHistory
import FheBlockchain.Store.CoinFacts

namespace FheBlockchain.Chain.Replicas

open Core.Transactions Core.Blocks Core.Messages Computer.Computations Computer.Messages
open Store.ChainstateEffects Store.Pools Validation ValidationFacts Manager AppendFacts Accepted
open Ledgers Replay Wire Delivery PoolHistory
open Store.PoolFacts (Priced spendTx_unknown)
open Store.CoinFacts (filterBlock_run receiveAll)
open Store.Chainstate hiding M addBlock
open Store.Coins hiding M
open Library.Execution Library.Results

variable {env : Env} {cfg : Config} {s t : ChainManager} {block b : Block}
variable {chain chain' : List BlockHeader} {height : UInt32}

section Verdicts

/-- Two forms of one block, which name the same header before it. -/
structure SameBlock (block b : Block) : Prop where
  transactions : b.transactions = block.transactions
  prevHash : b.header.prevHash = block.header.prevHash
  merkleRoot : b.header.merkleRoot = block.header.merkleRoot
  timestamp : b.header.timestamp = block.header.timestamp
  difficulty : b.header.difficulty = block.header.difficulty
  computations : b.header.computations = block.header.computations

theorem SameBlock.bindingData (h : SameBlock block b) (idx : ℕ) :
    bindingData b.header idx = bindingData block.header idx := by
  simp only [Validation.bindingData, BlockHeader.serialize, BlockHeader.serializeRest, h.prevHash,
    h.merkleRoot, h.timestamp, h.difficulty, h.computations]

theorem verifyComputations_congr (h : SameBlock block b) (idx : ℕ) (comps : List Computation) :
    verifyComputations env b.header idx comps = verifyComputations env block.header idx comps := by
  induction comps generalizing idx with
  | nil => rfl
  | cons comp comps ih => simp only [verifyComputations, h.bindingData, ih]

def timeAt (chain : List BlockHeader) (idx : UInt32) : Result Int64 :=
  (headerAt chain idx).map BlockHeader.timestamp

theorem timeAt_congr (h : chain'.map BlockHeader.timestamp = chain.map BlockHeader.timestamp)
    (idx : UInt32) : timeAt chain' idx = timeAt chain idx := by
  have hget : chain'[idx.toNat]?.map BlockHeader.timestamp =
      chain[idx.toNat]?.map BlockHeader.timestamp := by
    rw [← List.getElem?_map, ← List.getElem?_map, h]
  rw [timeAt, timeAt, headerAt, headerAt]
  cases h' : chain'[idx.toNat]? with
  | none =>
    rw [h', Option.map_none, eq_comm, Option.map_eq_none_iff] at hget
    rw [hget]
  | some header' =>
    rw [h', Option.map_some, eq_comm, Option.map_eq_some_iff] at hget
    obtain ⟨header, hheader, htime⟩ := hget
    rw [hheader]
    exact congrArg Except.ok htime.symm

theorem adjustDifficulty_eq (chain : List BlockHeader) (difficulty i : UInt32) :
    adjustDifficulty env cfg chain difficulty i = (do
      let first ← timeAt chain ((i - 1) * cfg.blocksPerEpoch)
      let last ← timeAt chain (i * cfg.blocksPerEpoch - 1)
      return env.retarget (cfg.secondsPerBlock * cfg.blocksPerEpoch.toUInt64.toInt64)
        (last - first) difficulty) := by
  rw [adjustDifficulty, timeAt, timeAt]
  cases headerAt chain ((i - 1) * cfg.blocksPerEpoch) with
  | error e => rfl
  | ok first => cases headerAt chain (i * cfg.blocksPerEpoch - 1) <;> rfl

theorem getDifficultyForHeight_congr
    (h : chain'.map BlockHeader.timestamp = chain.map BlockHeader.timestamp) (height : UInt32) :
    getDifficultyForHeight env cfg chain' height = getDifficultyForHeight env cfg chain height := by
  simp only [getDifficultyForHeight, adjustDifficulty_eq, timeAt_congr h]

theorem validateHeaderUnsafe_congr (hb : SameBlock block b)
    (hchain : chain'.map BlockHeader.timestamp = chain.map BlockHeader.timestamp)
    (height : UInt32) : validateHeaderUnsafe env cfg chain' b.header height =
      validateHeaderUnsafe env cfg chain block.header height := by
  simp only [validateHeaderUnsafe, getDifficultyForHeight_congr hchain, hb.difficulty,
    hb.computations, verifyComputations_congr hb]

/-- The verdict on a block does not depend on the form that it comes in, nor on
anything but the timestamps of the headers before it. -/
theorem validateBlock_congr (hb : SameBlock block b)
    (hchain : chain'.map BlockHeader.timestamp = chain.map BlockHeader.timestamp)
    (cs : MemChainstate) (height : UInt32) :
    validateBlock env cfg chain' cs b height = validateBlock env cfg chain cs block height := by
  simp only [validateBlock, hb.transactions, hb.merkleRoot, validateHeaderUnsafe_congr hb hchain]

end Verdicts

section Validity

def Valid (env : Env) (cfg : Config) (blocks : List Block) (cs : MemChainstate) (block : Block) :
    Prop :=
  ∃ prev txs, blocks.getLast? = some prev ∧ prev.header.timestamp < block.header.timestamp ∧
    validateBlock env cfg (blocks.map Block.header) cs block (UInt32.ofNat blocks.length) =
      .ok (some txs)

theorem sameBlock_link {head : BlockHeader} (h : block.header.prevHash = head.hash env.toSodium) :
    SameBlock block (link env head block) :=
  ⟨rfl, h.symm, rfl, rfl, rfl, rfl⟩

theorem validated_valid : Validated env cfg (Valid env cfg) := by
  intro s block head txs blocks hr hblocks
  obtain ⟨prev, hprev, rfl⟩ : ∃ prev, blocks.getLast? = some prev ∧ prev.header = head := by
    have hhead := hr.head_eq
    rwa [hblocks, List.getLast?_map, Option.map_eq_some_iff] at hhead
  refine ⟨prev, txs, hprev, hr.later, ?_⟩
  have hchecked := hr.checked
  rw [checkedFor, hblocks, List.length_map] at hchecked
  rw [← hchecked]
  exact validateBlock_congr (sameBlock_link hr.attaches) rfl _ _

end Validity

section Copies

variable {blocks : List Block} {cs : MemChainstate}

def shown (env : Env) (header : BlockHeader) : Bytes × Int64 :=
  (header.hash env.toSodium, header.timestamp)

/-- A node whose main chain is made of the given blocks, in whatever form they
have come, with an empty pool and nothing else stored. -/
structure Copy (env : Env) (cfg : Config) (blocks : List Block) (s : ChainManager) : Prop where
  chain : s.mainChain.headerChain.map (shown env) = (blocks.map Block.header).map (shown env)
  ledger : Ledger env cfg (Valid env cfg) blocks s.chainstate
  store : ∀ k, (s.blockStore.lookup k).isSome → k ∈ blocks.map (Block.hash env.toSodium)
  pool : s.memPool = .empty

theorem copy_start {wallet : Wallet} (h : create env cfg wallet = .ok s) :
    ∃ genesis, Block.genesis env.toSodium cfg.timestamp cfg.difficulty cfg.publicKey cfg.reward =
        .ok genesis ∧ Copy env cfg [genesis] s := by
  obtain ⟨genesis, hgen, rfl⟩ := create_ok h
  refine ⟨genesis, hgen, rfl, .genesis hgen, fun k hk ↦ ?_, rfl⟩
  rw [started_lookup] at hk
  split_ifs at hk with he
  · rw [he]
    exact List.mem_singleton_self _
  · contradiction

theorem Copy.timestamps (h : Copy env cfg blocks s) :
    s.mainChain.headerChain.map BlockHeader.timestamp =
      (blocks.map Block.header).map BlockHeader.timestamp := by
  have htimes := congrArg (List.map Prod.snd) h.chain
  rwa [List.map_map, List.map_map] at htimes

theorem Copy.length_eq (h : Copy env cfg blocks s) :
    s.mainChain.headerChain.length = blocks.length := by
  have hlen := congrArg List.length h.chain
  rwa [List.length_map, List.length_map, List.length_map] at hlen

theorem Copy.ready (h : Copy env cfg blocks s)
    (hnext : Ledger env cfg (Valid env cfg) (blocks ++ [block]) cs) (hb : SameBlock block b) :
    ∃ head txs, Ready env cfg s b none head txs ∧
      cs = applyAll (nextEffects env s b) s.chainstate := by
  obtain ⟨cs₀, prev, hold, hprev, hlink, -, ⟨last, txs, hlast, hlater, hvalid⟩, rfl⟩ :=
    hnext.append_inv h.ledger.ne_nil
  obtain rfl := hold.unique h.ledger
  obtain rfl := Option.some.inj (hprev.symm.trans hlast)
  obtain ⟨head, hhead, hshown⟩ : ∃ head, s.mainChain.headerChain.getLast? = some head ∧
      shown env head = shown env prev.header := by
    have hback := congrArg List.getLast? h.chain
    rw [List.getLast?_map, List.getLast?_map, List.getLast?_map, hprev] at hback
    exact Option.map_eq_some_iff.mp hback
  obtain ⟨hhash, htime⟩ := Prod.mk.inj hshown
  refine ⟨head, txs, ⟨hhead, ?_, ?_, ?_⟩, ?_⟩
  · rw [hb.prevHash, BlockHeader.prevHash, hlink, hhash]
    rfl
  · rw [checkedFor, validateBlock_congr hb h.timestamps, h.length_eq]
    exact hvalid
  · rw [hb.timestamp, htime]
    exact hlater
  · rw [nextEffects, h.length_eq]
    simp only [blockEffects, hb.transactions]

theorem spendBlock_empty {txs : List PooledTx} (h : AllPriced env.toSodium txs) :
    MemPool.spendBlock env.toSodium txs .empty = .ok () .empty := by
  rw [MemPool.spendBlock]
  rw [AllPriced] at h
  generalize txs.tail = ps at h
  induction ps with
  | nil => rfl
  | cons p ps ih =>
    obtain ⟨txid, hp⟩ := h p List.mem_cons_self
    have hone : (do let _ ← MemPool.spendTx env.toSodium p : MemPool.M Unit) .empty =
        .ok () .empty := by
      rw [run_bind_of_ok (spendTx_unknown hp.txid_eq (Finmap.lookup_empty txid))]
      rfl
    rw [forM_cons, hone]
    exact ih fun q hq ↦ h q (List.mem_cons_of_mem p hq)

theorem updateWallet_run
    (hids : ∀ tx ∈ block.transactions, ∃ txid, tx.txid env.toSodium = .ok txid)
    (s : ChainManager) : ∃ w, updateWallet env block s = .ok () { s with wallet := w } := by
  have hfilter : onWallet (filterBlock env.toSodium block) s = .ok ()
      { s with wallet := block.transactions.foldl (receiveAll env.toSodium) s.wallet } :=
    focus_of_ok (filterBlock_run hids s.wallet)
  exact ⟨spendBlock block (block.transactions.foldl (receiveAll env.toSodium) s.wallet),
    Eq.trans (run_bind_of_ok hfilter) rfl⟩

theorem Copy.extend {head : BlockHeader} (h : Copy env cfg blocks s)
    (hnext : Ledger env cfg (Valid env cfg) (blocks ++ [block]) t.chainstate)
    (hb : SameBlock block b) (hhash : b.hash env.toSodium = block.hash env.toSodium)
    (hchain : t.mainChain.headerChain = s.mainChain.headerChain ++ [(link env head b).header])
    (hstore : t.blockStore = (s.blockStore.storeBlock (b.hash env.toSodium) (link env head b)).1)
    (hpool : t.memPool = .empty) : Copy env cfg (blocks ++ [block]) t := by
  refine ⟨?_, hnext, fun k hk ↦ ?_, hpool⟩
  · have hlast : shown env (link env head b).header = shown env block.header :=
      Prod.ext hhash hb.timestamp
    rw [hchain, List.map_append, h.chain, List.map_append, List.map_append, List.map_singleton,
      List.map_singleton, List.map_singleton, hlast]
  · rw [hstore, storeBlock_lookup] at hk
    rw [List.map_append, List.map_singleton, List.mem_append, List.mem_singleton, ← hhash]
    split_ifs at hk with he
    · exact .inr he
    · exact .inl (h.store k hk)

theorem Copy.next (h : Copy env cfg blocks s)
    (hnext : Ledger env cfg (Valid env cfg) (blocks ++ [block]) cs) (hb : SameBlock block b)
    (hhash : b.hash env.toSodium = block.hash env.toSodium) :
    ∃ t, addBlock env cfg b none s = .ok true t ∧ Copy env cfg (blocks ++ [block]) t := by
  obtain ⟨head, txs, hr, rfl⟩ := h.ready hnext hb
  have happ : appendBlock env cfg b none s = .ok true
      (extended env s (link env head b) (applyAll (nextEffects env s b) s.chainstate) .empty) := by
    rw [appendBlock_validated hr, h.pool, spendBlock_empty (allPriced_of_validated hr.checked)]
  obtain ⟨w, hwallet⟩ := updateWallet_run (takeable_of_validated hr.checked).ids
    (extended env s (link env head b) (applyAll (nextEffects env s b) s.chainstate) .empty)
  have hattach : canAttach env s.mainChain.headerChain b.header = true := by
    rw [canAttach, hr.head_eq]
    exact decide_eq_true hr.attaches
  refine ⟨{ extended env s (link env head b) (applyAll (nextEffects env s b) s.chainstate) .empty with
    wallet := w }, ?_, h.extend hnext hb hhash rfl rfl rfl⟩
  rw [addBlock, run_bind_get, if_neg (by simp), if_pos hattach, appendAndUpdate,
    run_bind_of_ok happ, if_pos rfl]
  exact run_bind_of_ok hwallet

end Copies

end FheBlockchain.Chain.Replicas
