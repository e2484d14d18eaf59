import FheBlockchain.Chain.Manager
import FheBlockchain.Chain.ValidationFacts

namespace FheBlockchain.Chain.AppendFacts

open Core.Transactions Core.Blocks Store.ChainstateEffects Store.Pools Validation
open Store.Chainstate hiding M
open ValidationFacts Manager
open Library.Execution

variable (env : Env) (cfg : Config)

def checkedFor (s : ChainManager) (block : Block) :
    Option (List (List UInt64)) → Result (Option (List PooledTx))
  | some amounts => .ok (some (withAmounts block amounts))
  | none => validateBlock env cfg s.mainChain.headerChain s.chainstate block
      (UInt32.ofNat s.mainChain.headerChain.length)

/-- A block that the main chain takes in. -/
structure Ready (s : ChainManager) (block : Block) (alreadyValid : Option (List (List UInt64)))
    (head : BlockHeader) (txs : List PooledTx) : Prop where
  head_eq : s.mainChain.headerChain.getLast? = some head
  attaches : block.header.prevHash = head.hash env.toSodium
  checked : checkedFor env cfg s block alreadyValid = .ok (some txs)
  later : head.timestamp < block.header.timestamp

variable {env cfg} {s t : ChainManager} {block : Block} {v : Option (List (List UInt64))}
variable {head : BlockHeader} {txs : List PooledTx}

theorem appendBlock_eq (hhead : s.mainChain.headerChain.getLast? = some head)
    (hprev : block.header.prevHash = head.hash env.toSodium) :
    appendBlock env cfg block v s = match checkedFor env cfg s block v with
      | .error e => .error e s
      | .ok none => .ok false s
      | .ok (some txs) =>
        if block.header.timestamp ≤ head.timestamp then .ok false s
        else (do
          extendMain env block txs head s.mainChain.headerChain.length
          return true : M Bool) s := by
  have hback : backOf s.mainChain.headerChain = .ok head := by rw [backOf, hhead]
  simp only [appendBlock, run_bind_get, hback, run_bind_ofExcept_ok, hprev, ne_eq,
    not_true_eq_false, if_false]
  cases v with
  | some amounts =>
    simp only [run_bind_pure, checkedFor]
    split_ifs <;> rfl
  | none =>
    simp only [checkedFor]
    cases validateBlock env cfg s.mainChain.headerChain s.chainstate block
        (UInt32.ofNat s.mainChain.headerChain.length) with
    | error e => rfl
    | ok checked =>
      cases checked with
      | none => rfl
      | some txs =>
        rw [run_bind_ofExcept_ok]
        split_ifs <;> rfl

def Refused (env : Env) (cfg : Config) (s : ChainManager) (block : Block)
    (v : Option (List (List UInt64))) (e : Exception) : Prop :=
  (e = cannotAttach ∧ ∃ head, s.mainChain.headerChain.getLast? = some head ∧
    block.header.prevHash ≠ head.hash env.toSodium) ∨
  checkedFor env cfg s block v = .error (.throw e)

/-- The outcomes of an append: a refusal that changes nothing, or the end of
`append_block` for a block that is ready. -/
theorem appendBlock_cases (s : ChainManager) (block : Block)
    (v : Option (List (List UInt64))) :
    (∃ e, appendBlock env cfg block v s = .error e s ∧
      ∀ e', e = .throw e' → Refused env cfg s block v e') ∨
    appendBlock env cfg block v s = .ok false s ∨
    ∃ head txs, Ready env cfg s block v head txs ∧ appendBlock env cfg block v s = (do
      extendMain env block txs head s.mainChain.headerChain.length
      return true : M Bool) s := by
  cases hhead : s.mainChain.headerChain.getLast? with
  | none =>
    refine .inl ⟨.abort .indexOutOfRange, ?_, fun e' h ↦ by cases h⟩
    simp [appendBlock, backOf, hhead]
  | some head =>
    by_cases hprev : block.header.prevHash = head.hash env.toSodium
    · rw [appendBlock_eq hhead hprev]
      cases hc : checkedFor env cfg s block v with
      | error e => exact .inl ⟨e, rfl, fun e' h ↦ .inr (by rw [hc, h])⟩
      | ok checked =>
        cases checked with
        | none => exact .inr (.inl rfl)
        | some txs =>
          by_cases hlater : block.header.timestamp ≤ head.timestamp
          · exact .inr (.inl (if_pos hlater))
          · exact .inr (.inr ⟨head, txs, ⟨hhead, hprev, hc, Int64.not_le.mp hlater⟩, if_neg hlater⟩)
    · refine .inl ⟨.throw cannotAttach, ?_, fun e' h ↦ ?_⟩
      · simp [appendBlock, backOf, hhead, hprev, cannotAttach, invalidArgument]
      · cases h
        exact .inl ⟨rfl, head, hhead, hprev⟩

theorem appendBlock_ready (h : Ready env cfg s block v head txs) :
    appendBlock env cfg block v s = (do
      extendMain env block txs head s.mainChain.headerChain.length
      return true : M Bool) s := by
  rw [appendBlock_eq h.head_eq h.attaches, h.checked]
  exact if_neg (Int64.not_le.mpr h.later)

section Extend

variable (env)

/-- The state in which the end of `append_block` has pushed the header and
changed the chainstate. -/
def pushed (s : ChainManager) (block : Block) (cs : MemChainstate) : ChainManager :=
  { s with
    mainChain := { s.mainChain with headerChain := s.mainChain.headerChain ++ [block.header] }
    chainstate := cs }

def recorded (s : ChainManager) (block : Block) (cs : MemChainstate) (pool : MemPool) :
    ChainManager :=
  { pushed s block cs with
    blockStore := (s.blockStore.storeBlock (block.hash env.toSodium) block).1
    memPool := pool }

def extended (s : ChainManager) (block : Block) (cs : MemChainstate) (pool : MemPool) :
    ChainManager :=
  { recorded env s block cs pool with
    mainChain := {
      headerChain := s.mainChain.headerChain ++ [block.header]
      totalDifficulty := s.mainChain.totalDifficulty + block.header.difficulty.toNat }
    compStore := MemCompStore.spendBlock env.toSodium s.compStore block }

variable {env}

theorem storeBlock_proven (h : Proven block) (t : ChainManager) :
    storeBlock env (link env head block) t = .ok ()
      { t with blockStore :=
          (t.blockStore.storeBlock (block.hash env.toSodium) (link env head block)).1 } := by
  have h' : Proven (link env head block) := h
  rw [storeBlock, computeHash_proven env.toSodium h', run_bind_ofExcept_ok]
  rfl

theorem storeBlock_unproven (h : ¬ Proven block) (t : ChainManager) :
    storeBlock env (link env head block) t = .error (.throw proofNotFound) t := by
  have h' : ¬ Proven (link env head block) := h
  rw [storeBlock, computeHash_unproven env.toSodium h']
  rfl

theorem extendMain_eq (newHeight : ℕ) :
    extendMain env block txs head newHeight s =
      match addBlock env.toSodium (link env head block) (UInt32.ofNat newHeight) s.chainstate with
      | .error e cs => .error e (pushed s (link env head block) cs)
      | .ok _ cs =>
        if Proven block then match MemPool.spendBlock env.toSodium txs s.memPool with
          | .error e pool => .error e (recorded env s (link env head block) cs pool)
          | .ok _ pool => .ok () (extended env s (link env head block) cs pool)
        else .error (.throw proofNotFound) (pushed s (link env head block) cs) := by
  simp only [extendMain, run_bind_modify, onChainstate, onMemPool]
  cases hcs : addBlock env.toSodium (link env head block) (UInt32.ofNat newHeight)
      s.chainstate with
  | error e cs =>
    exact run_bind_of_error (focus_of_error hcs)
  | ok _ cs =>
    refine Eq.trans (run_bind_of_ok (focus_of_ok hcs)) ?_
    split_ifs with hproofs
    · refine Eq.trans (run_bind_of_ok (storeBlock_proven hproofs _)) ?_
      cases hpool : MemPool.spendBlock env.toSodium txs s.memPool with
      | error e pool => exact run_bind_of_error (focus_of_error hpool)
      | ok _ pool => exact Eq.trans (run_bind_of_ok (focus_of_ok hpool)) rfl
    · exact run_bind_of_error (storeBlock_unproven hproofs _)

end Extend

@[simp]
theorem link_transactions : (link env head block).transactions = block.transactions := rfl

@[simp]
theorem hash_link : (link env head block).hash env.toSodium = block.hash env.toSodium := rfl

@[simp]
theorem blockEffects_link (na : Sodium) (height : UInt32) :
    blockEffects na (link env head block) height = blockEffects na block height := rfl

theorem addBlock_link (na : Sodium) (height : UInt32) :
    addBlock na (link env head block) height = addBlock na block height := rfl

def nextEffects (env : Env) (s : ChainManager) (block : Block) : List Effect :=
  blockEffects env.toSodium block (UInt32.ofNat s.mainChain.headerChain.length)

/-- What an append does to the chain, the forks, the block store and the wallet,
should it fail in the end or not. -/
structure Grown (env : Env) (s : ChainManager) (block : Block) (t : ChainManager) : Prop where
  forks : t.forks = s.forks
  chain : t.mainChain.headerChain = s.mainChain.headerChain ++ [block.header]
  store : t.blockStore = s.blockStore ∨
    t.blockStore = (s.blockStore.storeBlock (block.hash env.toSodium) block).1
  wallet : t.wallet = s.wallet

def Appended (env : Env) (cfg : Config) (s : ChainManager) (block : Block)
    (v : Option (List (List UInt64))) (t : ChainManager) : Prop :=
  t = s ∨ ∃ head txs, Ready env cfg s block v head txs ∧ Grown env s (link env head block) t

theorem post_append_chain (s : ChainManager) (block : Block) (v : Option (List (List UInt64))) :
    Post (appendBlock env cfg block v) s (fun _ ↦ Appended env cfg s block v)
      (fun _ ↦ Appended env cfg s block v) := by
  rcases appendBlock_cases s block v with ⟨e, he, -⟩ | hf | ⟨head, txs, hr, happ⟩
  · rw [Post, he]
    cases e with
    | throw e => exact .inl rfl
    | abort u => trivial
  · rw [Post, hf]
    exact .inl rfl
  · rw [Post, happ]
    simp only [bind, EStateM.bind, extendMain_eq]
    cases addBlock env.toSodium (link env head block)
        (UInt32.ofNat s.mainChain.headerChain.length) s.chainstate with
    | error e cs =>
      cases e with
      | throw e => exact .inr ⟨head, txs, hr, rfl, rfl, .inl rfl, rfl⟩
      | abort u => trivial
    | ok _ cs =>
      dsimp only
      split_ifs with hproofs
      · cases MemPool.spendBlock env.toSodium txs s.memPool with
        | ok _ pool => exact .inr ⟨head, txs, hr, rfl, rfl, .inr rfl, rfl⟩
        | error e pool =>
          cases e with
          | throw e => exact .inr ⟨head, txs, hr, rfl, rfl, .inr rfl, rfl⟩
          | abort u => trivial
      · exact .inr ⟨head, txs, hr, rfl, rfl, .inl rfl, rfl⟩

theorem appendBlock_validated (h : Ready env cfg s block none head txs) :
    appendBlock env cfg block none s = match MemPool.spendBlock env.toSodium txs s.memPool with
      | .error e pool => .error e
          (recorded env s (link env head block) (applyAll (nextEffects env s block) s.chainstate) pool)
      | .ok _ pool => .ok true
          (extended env s (link env head block) (applyAll (nextEffects env s block) s.chainstate)
            pool) := by
  have hadd := (takeable_of_validated h.checked).addBlock_run
    (UInt32.ofNat s.mainChain.headerChain.length)
  have hext := @extendMain_eq env s block head txs
    s.mainChain.headerChain.length
  rw [addBlock_link, hadd] at hext
  simp only [if_pos (proven_of_validated h.checked)] at hext
  rw [appendBlock_ready h]
  simp only [bind, EStateM.bind, hext]
  cases MemPool.spendBlock env.toSodium txs s.memPool <;> rfl

theorem appendBlock_true (h : appendBlock env cfg block none s = .ok true t) :
    ∃ head txs pool, Ready env cfg s block none head txs ∧ t =
      extended env s (link env head block) (applyAll (nextEffects env s block) s.chainstate) pool := by
  rcases appendBlock_cases s block none with ⟨e, he, -⟩ | hfalse | ⟨head, txs, hr, -⟩
  · rw [he] at h
    contradiction
  · rw [hfalse] at h
    cases h
  · rw [appendBlock_validated hr] at h
    split at h
    · contradiction
    next pool _ =>
      cases h
      exact ⟨head, txs, pool, hr, rfl⟩

end FheBlockchain.Chain.AppendFacts
