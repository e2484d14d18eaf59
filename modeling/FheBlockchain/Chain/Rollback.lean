import FheBlockchain.Chain.Heaviest

namespace FheBlockchain.Chain.Rollback

open Core.Transactions Core.Blocks Store.ChainstateEffects Store.Pools Store.PoolFacts
open Store.CoinFacts Validation ValidationFacts Manager AppendFacts Accepted Exceptions Ledgers
open ReorgFacts Placement PoolHistory Replay Node Difficulty Judging Heaviest
open Store.Chainstate hiding M addBlock
open Library.Execution Library.Results

variable {env : Env} {cfg : Config} {s t : ChainManager} {block : Block} {fork : Fork}
variable {blocks rest : List Block} {cs : MemChainstate} {head : BlockHeader}

section Valid

theorem bindingData_link (hprev : block.header.prevHash = head.hash env.toSodium) (idx : ℕ) :
    bindingData (link env head block).header idx = bindingData block.header idx := by
  rw [bindingData, bindingData, BlockHeader.serialize, BlockHeader.serialize, hprev]
  rfl

theorem verifyComputations_congr {header header' : BlockHeader}
    (h : ∀ idx, bindingData header idx = bindingData header' idx) (idx : ℕ)
    (comps : List Computation) :
    verifyComputations env header idx comps = verifyComputations env header' idx comps := by
  induction comps generalizing idx with
  | nil => rfl
  | cons comp comps ih => simp only [verifyComputations, h, ih]

theorem validateBlock_link {chain : List BlockHeader} {height : UInt32}
    (hprev : block.header.prevHash = head.hash env.toSodium) :
    validateBlock env cfg chain cs (link env head block) height =
      validateBlock env cfg chain cs block height := by
  have hheader : validateHeaderUnsafe env cfg chain (link env head block).header height =
      validateHeaderUnsafe env cfg chain block.header height := by
    simp only [validateHeaderUnsafe, verifyComputations_congr (bindingData_link hprev)]
    rfl
  rw [validateBlock, validateBlock, hheader]
  rfl

def Valid (env : Env) (cfg : Config) (blocks : List Block) (cs : MemChainstate) (block : Block) :
    Prop :=
  (∀ prev ∈ blocks.getLast?, prev.header.timestamp < block.header.timestamp) ∧
    ∃ txs, validateBlock env cfg (blocks.map Block.header) cs block (UInt32.ofNat blocks.length) =
      .ok (some txs)

theorem validated_valid : Validated env cfg (Valid env cfg) := by
  intro s block head txs blocks hr hblocks
  have hchecked := hr.checked
  have hhead := hr.head_eq
  rw [checkedFor, hblocks, List.length_map, ← validateBlock_link hr.attaches] at hchecked
  rw [hblocks, List.getLast?_map] at hhead
  refine ⟨fun prev hprev ↦ ?_, txs, hchecked⟩
  rw [Option.mem_def.mp hprev] at hhead
  rw [Option.some.inj hhead]
  exact hr.later

theorem Valid.ready {prev : Block} (h : Valid env cfg blocks s.chainstate block)
    (hchain : s.mainChain.headerChain = blocks.map Block.header)
    (hprev : blocks.getLast? = some prev)
    (hlink : block.header.prevBlockHeader = some (prev.hash env.toSodium)) :
    ∃ txs, Ready env cfg s block none prev.header txs := by
  obtain ⟨hlater, txs, htxs⟩ := h
  refine ⟨txs, ?_, ?_, ?_, hlater prev hprev⟩
  · rw [hchain, List.getLast?_map, hprev]
    rfl
  · rw [BlockHeader.prevHash, hlink]
    rfl
  · rw [checkedFor, hchain, List.length_map]
    exact htxs

end Valid

section PutBack

/-- The pool holds the transactions of a block, the coinbase apart, unchanged or
not at all, and those that it holds do not pay the same amount to the same key
twice. -/
def Clear (na : Sodium) (pool : MemPool) (block : Block) : Prop :=
  ∀ tx ∈ block.transactions.tail, ∀ txid, tx.txid na = .ok txid →
    ∀ q, pool.txStorage.lookup txid = some q →
      q.tx = tx ∧ (tx.outputs.map (MemPool.outputHash na)).Nodup

theorem Clear.shrunk {na : Sodium} {pool pool' : MemPool} (h : Clear na pool block)
    (hpool : Shrunk na pool pool') : Clear na pool' block :=
  fun tx htx txid hid q hq ↦ h tx htx txid hid q (hpool.storage hq)

theorem Clear.spendBlock {pool : MemPool} {chain : List BlockHeader} {height : UInt32}
    {txs : List PooledTx} (h : Clear env.toSodium pool block) (hpool : Indexed env.toSodium pool)
    (hvalid : validateBlock env cfg chain cs block height = .ok (some txs)) :
    ∃ last, MemPool.spendBlock env.toSodium txs pool = .ok () last ∧
      Shrunk env.toSodium pool last := by
  obtain ⟨cb, rest, cks, hb, rfl⟩ := validateBlock_some hvalid
  refine spendTxs_clear hpool fun p hp ↦ ?_
  obtain ⟨c, hc, rfl⟩ := List.mem_map.mp hp
  obtain ⟨tx, htx, hchecked⟩ := exists_of_forall₂ (List.Forall₂.flip hb.checked) hc
  obtain rfl := hchecked.tx_eq
  refine ⟨c.txid, ⟨hchecked.txid_eq, c.fee, hchecked.fee_eq⟩, ?_⟩
  exact h _ (by rw [hb.transactions]; exact htx) _ hchecked.txid_eq

structure MadeOf (env : Env) (cfg : Config) (s : ChainManager) (blocks : List Block) : Prop where
  chain : s.mainChain.headerChain = blocks.map Block.header
  ledger : Ledger env cfg (Valid env cfg) blocks s.chainstate
  stored : ∀ b ∈ blocks, Stored env s.blockStore b

theorem MadeOf.append (h : MadeOf env cfg s blocks)
    (hled : Ledger env cfg (Valid env cfg) (blocks ++ [block]) cs)
    (hstored : Stored env s.blockStore block) (hpool : Indexed env.toSodium s.memPool)
    (hclear : Clear env.toSodium s.memPool block) :
    ∃ u, appendBlock env cfg block none s = .ok true u ∧ MadeOf env cfg u (blocks ++ [block]) ∧
      u.forks = s.forks ∧ Shrunk env.toSodium s.memPool u.memPool ∧
      Grows s.blockStore u.blockStore := by
  obtain ⟨cs₀, prev, hold, hprev, hlink, -, hvalid, rfl⟩ := hled.append_inv h.ledger.ne_nil
  obtain rfl := hold.unique h.ledger
  obtain ⟨txs, hr⟩ := hvalid.ready h.chain hprev hlink
  obtain ⟨pool, hspend, hshrunk⟩ := hclear.spendBlock hpool hr.checked
  have hself : link env prev.header block = block := link_eq (by rw [hlink]; rfl) hr.attaches
  have happ := appendBlock_validated hr
  rw [hspend, hself] at happ
  have hgrow := grows_storeBlock s.blockStore (block.hash env.toSodium) block
  have hlen : s.mainChain.headerChain.length = blocks.length := by rw [h.chain, List.length_map]
  refine ⟨_, happ, ⟨?_, ?_, fun b hb ↦ ?_⟩, rfl, hshrunk, hgrow⟩
  · simp [extended, h.chain]
  · rw [← hlen] at hled
    exact hled
  · rcases List.mem_append.mp hb with hb | hb
    · exact hgrow _ _ (h.stored b hb)
    · rw [List.mem_singleton.mp hb]
      exact hgrow _ _ hstored

theorem MadeOf.reappendOld (h : MadeOf env cfg s blocks)
    (hled : Ledger env cfg (Valid env cfg) (blocks ++ rest) cs)
    (hstored : ∀ b ∈ rest, Stored env s.blockStore b) (hpool : Indexed env.toSodium s.memPool)
    (hclear : ∀ b ∈ rest, Clear env.toSodium s.memPool b) :
    ∃ u, reappendOld env cfg (rest.map Block.header) s = .ok () u ∧
      MadeOf env cfg u (blocks ++ rest) ∧ u.forks = s.forks := by
  induction rest generalizing s blocks with
  | nil => exact ⟨s, rfl, by rwa [List.append_nil], rfl⟩
  | cons block rest ih =>
    rw [List.append_cons] at hled
    obtain ⟨cs₁, hfirst, -⟩ := hled.rewind_to (by simp)
    obtain ⟨u, happ, hmade, hforks, hshrunk, hgrow⟩ :=
      h.append hfirst (hstored block (by simp)) hpool (hclear block (by simp))
    obtain ⟨v, hrun, hall, hforks'⟩ := ih hmade hled
      (fun b hb ↦ hgrow _ _ (hstored b (by simp [hb]))) hshrunk.indexed
      fun b hb ↦ (hclear b (by simp [hb])).shrunk hshrunk
    refine ⟨v, ?_, by rwa [List.append_cons], hforks'.trans hforks⟩
    have hone : (do
        let b ← Exec.ofExcept ((← get).blockStore.getBlock (block.header.hash env.toSodium))
        if ← appendBlock env cfg b none then return () else throw (.abort .assertion) : M Unit) s =
        .ok () u := by
      change (Exec.ofExcept (s.blockStore.getBlock (block.hash env.toSodium)) >>= _) s = _
      rw [getBlock_of_lookup (hstored block (by simp)), run_bind_ofExcept_ok, run_bind_of_ok happ]
      rfl
    rw [Manager.reappendOld, List.map_cons, forM_cons, hone]
    exact hrun

end PutBack

section Underway

theorem even_of_ledger (h : Ledger env cfg (Valid env cfg) blocks cs)
    (hlt : blocks.length ≤ 2 ^ 32) : Even cfg (blocks.map Block.header) := by
  induction h with
  | genesis hgen =>
    intro x hx
    rw [List.map_singleton, List.mem_singleton] at hx
    rw [hx, genesis_difficulty hgen]
  | @append blocks block prev cs _ _ _ _ _ hvalid ih =>
    rw [List.length_append, List.length_singleton] at hlt
    obtain ⟨-, txs, htxs⟩ := hvalid
    obtain ⟨cb, rest, cks, hb, -⟩ := validateBlock_some htxs
    have hdiff := (headerTaken_height (by rw [List.length_map]; omega) hb.header).2
    rw [List.map_append]
    exact (ih (by omega)).append_singleton hdiff

theorem even_of_sound (h : Sound env cfg (Valid env cfg) s)
    (hlt : s.mainChain.headerChain.length ≤ 2 ^ 32) : Even cfg s.mainChain.headerChain := by
  obtain ⟨blocks, hblocks, hled, -⟩ := h.main
  rw [hblocks, List.length_map] at hlt
  rw [hblocks]
  exact even_of_ledger hled hlt

/-- A main chain in the middle of a reorg from `s`, `n` headers above the branch
point. -/
structure Underway (env : Env) (cfg : Config) (s : ChainManager) (src n : ℕ) (t : ChainManager) :
    Prop where
  sound : Sound env cfg (Valid env cfg) t
  grows : Grows s.blockStore t.blockStore
  forks : t.forks = s.forks
  chain : ∃ done, t.mainChain.headerChain = s.mainChain.headerChain.take (src + 1) ++ done ∧
    done.length = n
  pool : Shrunk env.toSodium s.memPool t.memPool
  total : cfg.difficulty.toNat * t.mainChain.headerChain.length ≤ t.mainChain.totalDifficulty

variable {src n : ℕ} {headers : List BlockHeader} {E : Exception → ChainManager → Prop}

theorem Underway.length (h : Underway env cfg s src n t)
    (hsrc : src < s.mainChain.headerChain.length) :
    t.mainChain.headerChain.length = src + 1 + n := by
  obtain ⟨done, hchain, rfl⟩ := h.chain
  rw [hchain, List.length_append, List.length_take]
  omega

theorem Underway.start (hs : Sound env cfg (Valid env cfg) s)
    (hpool : Indexed env.toSodium s.memPool)
    (htotal : cfg.difficulty.toNat * s.mainChain.headerChain.length ≤ s.mainChain.totalDifficulty) :
    Underway env cfg s src (s.mainChain.headerChain.drop (src + 1)).length s :=
  ⟨hs, fun _ _ hb ↦ hb, rfl, ⟨_, (List.take_append_drop _ _).symm, rfl⟩, ⟨hpool, id⟩, htotal⟩

theorem Underway.cut (h : Underway env cfg s src n t)
    (hsrc : src < s.mainChain.headerChain.length) :
    ∃ cs, rewindHeaders env (t.mainChain.headerChain.drop (src + 1)).reverse t =
      .ok () { t with chainstate := cs } ∧
      Underway env cfg s src 0 (truncated (src + 1) { t with chainstate := cs }) := by
  obtain ⟨cs, hrun, hsound⟩ := h.sound.cut src
  refine ⟨cs, hrun, hsound, h.grows, h.forks, ⟨[], ?_, rfl⟩, h.pool, ?_⟩
  · obtain ⟨done, hchain, -⟩ := h.chain
    have hlen : (s.mainChain.headerChain.take (src + 1)).length = src + 1 := by
      rw [List.length_take]
      omega
    rw [List.append_nil]
    change t.mainChain.headerChain.take (src + 1) = _
    rw [hchain, List.take_left' hlen]
  · change cfg.difficulty.toNat * (t.mainChain.headerChain.take (src + 1)).length ≤ _
    refine (Nat.mul_le_mul_left _ ?_).trans h.total
    exact List.length_take_le' _ _

theorem Underway.post_cut {A : ChainManager → Prop} (h : Underway env cfg s src n t)
    (hsrc : src < s.mainChain.headerChain.length)
    (hA : ∀ u, Underway env cfg s src 0 u → A u) :
    Post (rewindHeaders env (t.mainChain.headerChain.drop (src + 1)).reverse) t
      (fun _ u ↦ A (truncated (src + 1) u)) E := by
  obtain ⟨cs, hrun, hcut⟩ := h.cut hsrc
  rw [Post, hrun]
  exact hA _ hcut

theorem Underway.append {header : BlockHeader} (h : Underway env cfg s src n t)
    (hsrc : src < s.mainChain.headerChain.length) (hlt : src + 1 + n < 2 ^ 32)
    (hheld : Held env s.blockStore header) :
    ∃ b, t.blockStore.lookup (header.hash env.toSodium) = some b ∧
      Post (appendBlock env cfg b none) t
        (fun r u ↦ if r then Underway env cfg s src (n + 1) u else u = t) (fun _ u ↦ u = t) := by
  obtain ⟨b, hb, hsound⟩ := append_held validated_valid h.sound (hheld.mono h.grows)
  have hshape : Post (appendBlock env cfg b none) t
      (fun r u ↦ if r then (∃ x, u.mainChain.headerChain = t.mainChain.headerChain ++ [x]) ∧
          u.forks = t.forks ∧ Shrunk env.toSodium t.memPool u.memPool ∧
          u.mainChain.totalDifficulty = t.mainChain.totalDifficulty + cfg.difficulty.toNat
        else u = t) (fun _ u ↦ u = t) := by
    refine post_append_indexed h.pool.indexed (by simp) rfl (fun _ _ ↦ rfl)
      fun head txs cs pool hr _ hpool ↦ ?_
    obtain ⟨cb, rest, cks, hvalid, -⟩ := validateBlock_some hr.checked
    have hdiff := (headerTaken_height (by rw [h.length hsrc]; exact hlt) hvalid.header).2
    rw [if_pos rfl]
    refine ⟨⟨_, rfl⟩, rfl, hpool, ?_⟩
    change t.mainChain.totalDifficulty + b.header.difficulty.toNat = _
    rw [hdiff]
  refine ⟨b, hb, (hsound.and hshape).mono (fun r u hu ↦ ?_) fun _ _ he ↦ he.2⟩
  cases r with
  | false => exact hu.2
  | true =>
    obtain ⟨⟨hs, hgrow⟩, ⟨x, hnext⟩, hforks, hpool, htotal⟩ := hu
    obtain ⟨done, hchain, hlen⟩ := h.chain
    rw [if_pos rfl]
    refine ⟨hs, fun k b hb ↦ hgrow k b (h.grows k b hb), hforks.trans h.forks,
      ⟨done ++ [x], ?_, ?_⟩, ⟨hpool.indexed, fun hk ↦ h.pool.storage (hpool.storage hk)⟩, ?_⟩
    · rw [hnext, hchain, List.append_assoc]
    · rw [List.length_append, List.length_singleton, hlen]
    · rw [hnext, htotal, List.length_append, List.length_singleton, Nat.mul_succ]
      exact Nat.add_le_add_right h.total _

theorem Underway.next (h : Underway env cfg s src n t)
    (hsrc : src < s.mainChain.headerChain.length) (hlt : src + 1 + n < 2 ^ 32)
    {header : BlockHeader} (hheld : ∀ x ∈ header :: headers, Held env s.blockStore x)
    (hE : ∀ e n u, Underway env cfg s src n u → E e u) :
    ∃ b, t.blockStore.lookup (header.hash env.toSodium) = some b ∧
      Post (appendBlock env cfg b none) t
        (fun r u ↦ if r then Underway env cfg s src (n + 1) u ∧ ∀ x ∈ headers, Held env s.blockStore x
          else u = t) E := by
  obtain ⟨b, hb, hpost⟩ := h.append hsrc hlt (hheld header (by simp))
  refine ⟨b, hb, hpost.mono (fun r u hu ↦ ?_) fun e u hu ↦ ?_⟩
  · cases r with
    | false => exact hu
    | true => exact ⟨hu, fun x hx ↦ hheld x (by simp [hx])⟩
  · rw [hu]
    exact hE e n t h

theorem Underway.appendFork (h : Underway env cfg s src 0 t)
    (hsrc : src < s.mainChain.headerChain.length) (hlt : src + 1 + headers.length ≤ 2 ^ 32)
    (hheld : ∀ x ∈ headers, Held env s.blockStore x)
    (hE : ∀ e n u, Underway env cfg s src n u → E e u) :
    Post (appendFork env cfg 0 headers) t
      (fun r u ↦ r.elim (Underway env cfg s src headers.length u) fun idx ↦
        idx < headers.length ∧ ∃ m, Underway env cfg s src m u) E :=
  post_appendFork_counting (K := fun rest _ ↦ ∀ x ∈ rest, Held env s.blockStore x)
    (fun _ _ _ _ hn hway hrest ↦ hway.next hsrc (by omega) hrest hE) h hheld

theorem Underway.post_reappendOld (h : Underway env cfg s src 0 t)
    (hsrc : src < s.mainChain.headerChain.length) (hlt : src + 1 + headers.length ≤ 2 ^ 32)
    (hheld : ∀ x ∈ headers, Held env s.blockStore x)
    (hE : ∀ e n u, Underway env cfg s src n u → E e u) :
    Post (reappendOld env cfg headers) t
      (fun _ u ↦ Underway env cfg s src headers.length u) E :=
  post_reappendOld_counting (K := fun rest _ ↦ ∀ x ∈ rest, Held env s.blockStore x)
    (fun _ _ _ _ hn hway hrest ↦ hway.next hsrc (by omega) hrest hE) h hheld

end Underway

section Totals

/-- Total difficulties count each header at least once, those up to a fork's
branch point included. -/
structure Covered (cfg : Config) (s : ChainManager) : Prop where
  total : cfg.difficulty.toNat * s.mainChain.headerChain.length ≤ s.mainChain.totalDifficulty
  forks : ∀ f ∈ s.forks, Even cfg f.headerChain ∧
    cfg.difficulty.toNat * (f.chainSrc.toNat + 1 + f.headerChain.length) ≤ f.totalDifficulty

theorem Covered.congr (h : Covered cfg s) (hmain : t.mainChain = s.mainChain)
    (hforks : t.forks = s.forks) : Covered cfg t := by
  refine ⟨?_, ?_⟩
  · rw [hmain]
    exact h.total
  · rw [hforks]
    exact h.forks

theorem Covered.set (h : Covered cfg s) {k : ℕ} (heven : Even cfg fork.headerChain)
    (htotal : cfg.difficulty.toNat * (fork.chainSrc.toNat + 1 + fork.headerChain.length) ≤
      fork.totalDifficulty) : ∀ f ∈ s.forks.set k fork, Even cfg f.headerChain ∧
    cfg.difficulty.toNat * (f.chainSrc.toNat + 1 + f.headerChain.length) ≤ f.totalDifficulty := by
  intro f hf
  rcases List.mem_or_eq_of_mem_set hf with hf | rfl
  · exact h.forks f hf
  · exact ⟨heven, htotal⟩

theorem covered_trim {trimmed : Fork} {idx : ℕ} (heven : Even cfg fork.headerChain)
    (htotal : cfg.difficulty.toNat * (fork.chainSrc.toNat + 1 + fork.headerChain.length) ≤
      fork.totalDifficulty) (hidx : idx ≤ fork.headerChain.length)
    (h : trimFork fork idx = .ok trimmed) :
    trimmed.totalDifficulty + totalOf (fork.headerChain.drop idx) = fork.totalDifficulty ∧
      cfg.difficulty.toNat * (fork.chainSrc.toNat + 1 + idx) ≤ trimmed.totalDifficulty := by
  obtain ⟨-, rfl⟩ := trimFork_ok h
  have hdrop : Even cfg (fork.headerChain.drop idx) := fun x hx ↦ heven x (List.mem_of_mem_drop hx)
  have hreverse : Even cfg (fork.headerChain.drop idx).reverse := fun x hx ↦
    hdrop x (List.mem_reverse.mp hx)
  have hsplit : fork.chainSrc.toNat + 1 + fork.headerChain.length =
      (fork.chainSrc.toNat + 1 + idx) + (fork.headerChain.length - idx) := by omega
  rw [hsplit, Nat.mul_add] at htotal
  dsimp only
  rw [foldl_sub, totalOf_even hdrop, totalOf_even hreverse, List.length_reverse, List.length_drop]
  omega

theorem post_reorg_covered {k : ℕ} (h : Covered cfg s) (hs : Sound env cfg (Valid env cfg) s)
    (hpool : Indexed env.toSodium s.memPool) (hmain : s.mainChain.headerChain.length < 2 ^ 32)
    (heven : Even cfg fork.headerChain)
    (htotal : cfg.difficulty.toNat * (fork.chainSrc.toNat + 1 + fork.headerChain.length) ≤
      fork.totalDifficulty)
    (hlt : fork.chainSrc.toNat + 1 + fork.headerChain.length ≤ 2 ^ 32)
    (hheld : ∀ x ∈ fork.headerChain, Held env s.blockStore x) :
    Post (reorg env cfg k fork) s (fun _ ↦ Covered cfg) (fun _ ↦ Covered cfg) := by
  cases hat : s.mainChain.headerChain[fork.chainSrc.toNat]? with
  | none =>
    rw [Post, reorg]
    simp only [run_bind_get, headerAt, hat, run_bind_ofExcept_error]
  | some srcHeader =>
    have hsrc := (List.getElem?_eq_some_iff.mp hat).1
    have hkept {n : ℕ} {u : ChainManager} (hu : Underway env cfg s fork.chainSrc.toNat n u) :
        Covered cfg u := ⟨hu.total, hu.forks ▸ h.forks⟩
    have htail : fork.chainSrc.toNat + 1 +
        (s.mainChain.headerChain.drop (fork.chainSrc.toNat + 1)).length =
        s.mainChain.headerChain.length := by
      rw [List.length_drop]
      omega
    refine post_reorg (C := Underway env cfg s fork.chainSrc.toNat 0)
      (W := Underway env cfg s fork.chainSrc.toNat fork.headerChain.length)
      (L := fun idx u ↦ idx < fork.headerChain.length ∧
        ∃ m, Underway env cfg s fork.chainSrc.toNat m u)
      (A := fun idx u ↦ idx < fork.headerChain.length ∧
        Underway env cfg s fork.chainSrc.toNat 0 u)
      (B := fun idx u ↦ idx < fork.headerChain.length ∧ Underway env cfg s fork.chainSrc.toNat
        (s.mainChain.headerChain.drop (fork.chainSrc.toNat + 1)).length u)
      hat ?_ ?_ ?_ ?_ ?_ ?_ fun _ _ w hq _ ↦ hq w
    · exact (Underway.start hs hpool h.total).post_cut hsrc fun u hu ↦ hu
    · exact fun u hu ↦ hu.appendFork hsrc hlt hheld fun _ _ _ hw ↦ hkept hw
    · rintro idx u ⟨hidx, m, hway⟩
      exact (hway.post_cut hsrc fun w hw ↦ hw).mono (fun _ w hw ↦ ⟨hidx, hw⟩) fun _ _ he ↦ he
    · rintro idx u ⟨hidx, hway⟩
      exact (hway.post_reappendOld hsrc (by omega) (hs.held_tail _) fun _ _ _ hw ↦ hkept hw).mono
        (fun _ w hw ↦ ⟨hidx, hw⟩) fun _ _ he ↦ he
    · rintro idx u trimmed w ⟨hidx, hway⟩ htrim
      have hlen := hway.length hsrc
      rw [htail] at hlen
      have hle := (covered_trim heven htotal hidx.le htrim).2
      obtain ⟨-, rfl⟩ := trimFork_ok htrim
      refine ⟨?_, ?_⟩
      · change _ * u.mainChain.headerChain.length ≤ _
        rw [hlen]
        exact h.total
      · refine (hkept hway).set (fun x hx ↦ heven x (List.mem_of_mem_take hx)) ?_
        simpa [Nat.min_eq_left hidx.le] using hle
    · intro u w hway
      refine ⟨?_, fun f hf ↦ ?_⟩
      · change _ * u.mainChain.headerChain.length ≤ _
        rw [hway.length hsrc]
        exact htotal
      · rcases List.mem_append.mp hf with hf | hf
        · exact (hkept hway).forks f (List.mem_of_mem_eraseIdx hf)
        · rw [List.mem_singleton.mp hf]
          refine ⟨fun x hx ↦ even_of_sound hs hmain.le x (List.mem_of_mem_drop hx), ?_⟩
          change _ * (fork.chainSrc.toNat + 1 +
            (s.mainChain.headerChain.drop (fork.chainSrc.toNat + 1)).length) ≤ _
          rw [htail]
          exact h.total

end Totals

section Runs

def FromMiner (env : Env) (cfg : Config) (s : ChainManager) : Event → Prop
  | .block block (some amounts) => Identified env.toSodium block ∧
      AllPriced env.toSodium (withAmounts block amounts) ∧
      Mined env cfg s (.block block (some amounts))
  | _ => True

def Regular (env : Env) (cfg : Config) (s : ChainManager) (event : Event) : Prop :=
  Delivered env cfg (Valid env cfg) s event ∧ FromMiner env cfg s event

theorem Regular.mined {event : Event} (h : Regular env cfg s event) : Mined env cfg s event := by
  match event, h with
  | .block _ (some _), h => exact h.2.2.2
  | .block _ none, _ | .tx _, _ | .computation _, _ => trivial

theorem Regular.paid {event : Event} (h : Regular env cfg s event) :
    Paid env.toSodium s event := by
  match event, h with
  | .block _ (some _), h => exact h.2.2.1
  | .block _ none, _ | .tx _, _ | .computation _, _ => trivial

theorem Covered.grown (h : Covered cfg s) (hep : FirstEpoch cfg s) (hf : fork ∈ s.forks)
    (htakes : ForkTakes env cfg fork block.header) (head : BlockHeader) :
    Even cfg (grown fork (link env head block).header).headerChain ∧
      cfg.difficulty.toNat * (fork.chainSrc.toNat + 1 +
          (grown fork (link env head block).header).headerChain.length) ≤
        (grown fork (link env head block).header).totalDifficulty ∧
      fork.chainSrc.toNat + 1 + (grown fork (link env head block).header).headerChain.length ≤
        2 ^ 32 := by
  obtain ⟨heven, htotal⟩ := h.forks fork hf
  have hshort := hep.forks fork hf
  have hbpe := cfg.blocksPerEpoch.toNat_lt
  have hdiff := (headerTaken_height (by omega) htakes).2
  have hgrown := grown_lt (by omega) (by omega) htakes (link env head block).header
  refine ⟨heven.append_singleton hdiff, ?_, ?_⟩
  · change _ * (fork.chainSrc.toNat + 1 + (fork.headerChain ++ [_]).length) ≤
      fork.totalDifficulty + block.header.difficulty.toNat
    rw [hdiff, List.length_append, List.length_singleton, ← Nat.add_assoc, Nat.mul_succ]
    exact Nat.add_le_add_right htotal _
  · simp only [Placement.grown] at hgrown ⊢
    omega

theorem post_append_covered {mined : Option (List (List UInt64))} (h : Covered cfg s)
    (hep : FirstEpoch cfg s) (hpool : Indexed env.toSodium s.memPool)
    (hs : Sound env cfg (Valid env cfg) s) (hon : ¬ OffMain env s block mined)
    (hreg : Regular env cfg s (.block block mined)) :
    Post (appendBlock env cfg block mined) s (fun _ ↦ Covered cfg) (fun _ ↦ Covered cfg) := by
  have hv : ∀ amounts ∈ mined, Identified env.toSodium block ∧
      AllPriced env.toSodium (withAmounts block amounts) := by
    rintro amounts ⟨⟩
    exact ⟨hreg.2.1, hreg.2.2.1⟩
  refine post_append_indexed hpool hv h (fun _ _ ↦ h) fun head txs cs pool hr _ _ ↦ ?_
  obtain ⟨blocks, hblocks, -, -⟩ := hs.main
  have hvalid : Valid env cfg blocks s.chainstate (link env head block) := by
    cases mined with
    | none => exact validated_valid s block head txs blocks hr hblocks
    | some amounts => exact ((hreg.1 head (.main hon hr)).2 rfl).2 blocks hblocks
  obtain ⟨-, checked, htxs⟩ := hvalid
  obtain ⟨cb, rest, cks, hb, -⟩ := validateBlock_some htxs
  have hlen := hep.main_lt
  have hdiff : block.header.difficulty = cfg.difficulty :=
    (headerTaken_height (by rwa [← hblocks]) hb.header).2
  refine ⟨?_, h.forks⟩
  change _ * (s.mainChain.headerChain ++ [_]).length ≤
    s.mainChain.totalDifficulty + block.header.difficulty.toNat
  rw [hdiff, List.length_append, List.length_singleton, Nat.mul_succ]
  exact Nat.add_le_add_right h.total _

theorem post_handle_covered (h : Covered cfg s) (hep : FirstEpoch cfg s)
    (hpool : Indexed env.toSodium s.memPool) (hs : Sound env cfg (Valid env cfg) s) {event : Event}
    (hreg : Regular env cfg s event) :
    Post (handle env cfg event) s (fun _ ↦ Covered cfg) (fun _ ↦ Covered cfg) := by
  cases event with
  | tx tx =>
    exact (addTx_sameChains s tx).mono (fun _ _ ht ↦ h.congr ht.mainChain ht.forks)
      fun _ _ ht ↦ h.congr ht.mainChain ht.forks
  | computation comp =>
    exact (addComputation_sameChains s comp).mono (fun _ _ ht ↦ h.congr ht.mainChain ht.forks)
      fun _ _ ht ↦ h.congr ht.mainChain ht.forks
  | block block mined =>
    refine post_addBlock h (fun _ _ _ ht ↦ ht) (fun hon ↦ ?_)
      (fun k fork hoff hfind htakes ↦ ?_) fun i src total hoff hfind hatt htakes ↦ ?_
    · exact (post_append_covered h hep hpool hs hon hreg).mono
        (fun _ _ ht _ ↦ ⟨ht.total, ht.forks⟩) fun _ _ ht ↦ ht
    · have hmem := List.mem_of_getElem? (findFork_some hfind).2.1
      obtain ⟨heven, htotal, hlt⟩ := h.grown hep hmem htakes fork.head
      have hset : Covered cfg (forked env s k fork block) := ⟨h.total, h.set heven htotal⟩
      obtain ⟨hs', -, hheld⟩ := hs.forked hfind (hreg.1 _ (.fork hoff hfind htakes)).1
      exact ⟨fun _ ↦ hset, fun _ ↦ post_reorg_covered hset hs' hpool hep.main_lt heven htotal hlt hheld⟩
    · obtain ⟨-, hget, -⟩ := findAttachment_some hatt
      obtain ⟨hi, -⟩ := List.getElem?_eq_some_iff.mp hget
      have hdiff := (headerTaken_height (by simp [newFork]) htakes).2
      have hmain := hep.main_lt
      have hsum := findAttachment_total hatt
      have heven := even_of_sound hs hmain.le
      rw [totalOf_even fun x hx ↦ heven x (List.mem_of_mem_take hx), List.length_take,
        Nat.zero_add, Nat.min_eq_left (by omega), Nat.sub_zero] at hsum
      refine ⟨h.total, fun f hf ↦ ?_⟩
      rcases List.mem_append.mp hf with hf | hf
      · exact h.forks f hf
      · rw [List.mem_singleton.mp hf]
        refine ⟨Even.append_singleton (fun x hx ↦ by simp [newFork] at hx) hdiff, ?_⟩
        change _ * ((UInt32.ofNat i).toNat + 1 + 1) ≤ total + block.header.difficulty.toNat
        rw [hdiff, hsum, UInt32.toNat_ofNat', Nat.mod_eq_of_lt (by omega), Nat.mul_succ]

structure Settled (env : Env) (cfg : Config) (s : ChainManager) : Prop where
  sound : Sound env cfg (Valid env cfg) s
  covered : Covered cfg s
  epoch : FirstEpoch cfg s
  pool : Indexed env.toSodium s.memPool

theorem settled_of_run {wallet : Store.Coins.Wallet} (hs : create env cfg wallet = .ok s)
    (hrun : Run env cfg (Regular env cfg) s t) : Settled env cfg t := by
  have hep {u : ChainManager} (hu : Run env cfg (Regular env cfg) s u) : FirstEpoch cfg u :=
    firstEpoch_of_run hs (hu.mono fun _ _ ↦ Regular.mined)
  have hpool {u : ChainManager} (hu : Run env cfg (Regular env cfg) s u) :
      Indexed env.toSodium u.memPool := indexed_of_run hs (hu.mono fun _ _ ↦ Regular.paid)
  have hsound {u : ChainManager} (hu : Run env cfg (Regular env cfg) s u) :
      Sound env cfg (Valid env cfg) u :=
    hu.invariant (sound_start hs) fun _ _ h hreg ↦ post_handle_sound validated_valid h hreg.1
  have hstart : Covered cfg s := by
    have hw := weighed_start hs
    exact ⟨hw.total.ge, fun f hf ↦ ⟨(hw.forks f hf).1, (hw.forks f hf).2.1.ge⟩⟩
  refine ⟨hsound hrun, ?_, hep hrun, hpool hrun⟩
  exact hrun.invariant_of_run hstart fun u _ hu h hreg ↦
    post_handle_covered h (hep hu) (hpool hu) (hsound hu) hreg

end Runs

section Reorg

variable {k idx : ℕ} {s₀ : ChainManager} {C : ChainManager → Event → Prop}

/-- The states in which fork number `k` outweighs the main chain: a state that
has been reached, or one in which `add_block` has put a block on the fork and
calls `reorg`. -/
inductive Outweighed (env : Env) (cfg : Config) (C : ChainManager → Event → Prop)
    (s₀ : ChainManager) : ChainManager → ℕ → Fork → Prop
  | reached {s : ChainManager} {k : ℕ} {fork : Fork} : Run env cfg C s₀ s →
      s.forks[k]? = some fork → s.mainChain.totalDifficulty < fork.totalDifficulty →
      Outweighed env cfg C s₀ s k fork
  | grown {s : ChainManager} {k : ℕ} {fork : Fork} {block : Block} : Run env cfg C s₀ s →
      C s (.block block none) → OffMain env s block none →
      findFork env block.header 0 s.forks = some (k, fork) → ForkTakes env cfg fork block.header →
      s.mainChain.totalDifficulty < (grown fork (link env fork.head block).header).totalDifficulty →
      Outweighed env cfg C s₀ (forked env s k fork block) k
        (grown fork (link env fork.head block).header)

/-- Of the blocks of the fork, `block` at position `idx` is the first that the main
chain does not take in once it has been taken off down to the branch point, be it
refused or answered with an exception. It is tried in the state `u`. -/
structure FirstFailing (env : Env) (cfg : Config) (s : ChainManager) (fork : Fork) (idx : ℕ)
    (block : Block) (u : ChainManager) : Prop where
  before : ∃ cut,
    rewindHeaders env (s.mainChain.headerChain.drop (fork.chainSrc.toNat + 1)).reverse s =
      .ok () cut ∧
    appendFork env cfg 0 (fork.headerChain.take idx) (truncated (fork.chainSrc.toNat + 1) cut) =
      .ok none u
  tried : ∃ header, fork.headerChain[idx]? = some header ∧
    u.blockStore.lookup (header.hash env.toSodium) = some block
  fails : ∀ w, appendBlock env cfg block none u ≠ .ok true w

theorem appendBlock_false (h : appendBlock env cfg block none s = .ok false t) : t = s := by
  rcases appendBlock_cases s block none with ⟨e, he, -⟩ | hf | ⟨head, txs, hr, -⟩
  · rw [he] at h
    contradiction
  · rw [hf] at h
    exact (EStateM.Result.ok.inj h).2.symm
  · rw [appendBlock_validated hr] at h
    split at h <;> simp at h

theorem appendFork_append {pre rest : List BlockHeader} {i : ℕ}
    (h : appendFork env cfg i pre s = .ok none t) :
    appendFork env cfg i (pre ++ rest) s = appendFork env cfg (i + pre.length) rest t := by
  induction pre generalizing i s with
  | nil =>
    cases h
    rfl
  | cons header pre ih =>
    rw [appendFork, run_bind_get] at h
    obtain ⟨b, u, hget, h⟩ := run_bind_ok.mp h
    obtain ⟨added, v, happ, h⟩ := run_bind_ok.mp h
    cases added with
    | false => cases h
    | true =>
      rw [if_pos rfl] at h
      rw [List.cons_append, appendFork, run_bind_get, run_bind_of_ok hget, run_bind_of_ok happ,
        if_pos rfl, ih h, List.length_cons, Nat.add_assoc, Nat.add_comm 1]

theorem appendFork_cons {header : BlockHeader} {rest : List BlockHeader} {i : ℕ}
    (hb : s.blockStore.lookup (header.hash env.toSodium) = some block) :
    appendFork env cfg i (header :: rest) s = (do
      if ← appendBlock env cfg block none then appendFork env cfg (i + 1) rest
      else return some i : M (Option ℕ)) s := by
  rw [appendFork, run_bind_get, getBlock_of_lookup hb, run_bind_ofExcept_ok]

theorem FirstFailing.appendFork {u : ChainManager}
    (h : FirstFailing env cfg s fork idx block u) : ∃ cut,
      rewindHeaders env (s.mainChain.headerChain.drop (fork.chainSrc.toNat + 1)).reverse s =
        .ok () cut ∧
      (appendBlock env cfg block none u = .ok false u ∧
          Manager.appendFork env cfg 0 fork.headerChain
            (truncated (fork.chainSrc.toNat + 1) cut) = .ok (some idx) u ∨
        (∀ w, appendBlock env cfg block none u ≠ .ok false w) ∧
          ∃ e w, Manager.appendFork env cfg 0 fork.headerChain
            (truncated (fork.chainSrc.toNat + 1) cut) = .error e w) := by
  obtain ⟨cut, hcut, hbefore⟩ := h.before
  obtain ⟨header, hheader, hb⟩ := h.tried
  refine ⟨cut, hcut, ?_⟩
  obtain ⟨hin, hget⟩ := List.getElem?_eq_some_iff.mp hheader
  have hsplit : fork.headerChain =
      fork.headerChain.take idx ++ header :: fork.headerChain.drop (idx + 1) := by
    rw [← hget, ← List.drop_eq_getElem_cons hin, List.take_append_drop]
  have hlen : 0 + (fork.headerChain.take idx).length = idx := by
    rw [List.length_take]
    omega
  rw [hsplit, appendFork_append hbefore, hlen, appendFork_cons hb]
  cases happ : appendBlock env cfg block none u with
  | ok added w =>
    cases added with
    | true => exact absurd happ (h.fails w)
    | false =>
      obtain rfl := appendBlock_false happ
      exact .inl ⟨rfl, run_bind_of_ok happ⟩
  | error e w => exact .inr ⟨fun w ↦ by simp, e, w, run_bind_of_error happ⟩

/-- Where the loop is cut short, a block has been refused. -/
theorem tried_of_refused {headers : List BlockHeader} {i j : ℕ} {u : ChainManager}
    (h : Manager.appendFork env cfg i headers s = .ok (some j) u) : ∃ n, j = i + n ∧
      Manager.appendFork env cfg i (headers.take n) s = .ok none u ∧ ∃ header block,
        headers[n]? = some header ∧
          u.blockStore.lookup (header.hash env.toSodium) = some block ∧
          appendBlock env cfg block none u = .ok false u := by
  induction headers generalizing i s with
  | nil => cases h
  | cons header headers ih =>
    rw [Manager.appendFork, run_bind_get] at h
    obtain ⟨b, v, hget, hrest⟩ := run_bind_ok.mp h
    obtain ⟨hb, rfl⟩ : s.blockStore.lookup (header.hash env.toSodium) = some b ∧ v = s := by
      rw [MemBlockStore.getBlock] at hget
      split at hget
      next found hfound =>
        cases hget
        exact ⟨hfound, rfl⟩
      next => cases hget
    obtain ⟨added, w, happ, hgo⟩ := run_bind_ok.mp hrest
    cases added with
    | false =>
      obtain ⟨rfl, rfl⟩ : i = j ∧ w = u := by
        cases hgo
        exact ⟨rfl, rfl⟩
      obtain rfl := appendBlock_false happ
      exact ⟨0, rfl, rfl, header, b, rfl, hb, happ⟩
    | true =>
      obtain ⟨n, rfl, htake, htried⟩ := ih hgo
      refine ⟨n + 1, by omega, ?_, htried⟩
      rw [List.take_succ_cons, appendFork_cons hb, run_bind_of_ok happ]
      exact htake

/-- The reorg returns, with the main chain and the chainstate as before. The fork
keeps its first `idx` headers, and its total loses the difficulties of the
others. -/
def LeavesAsBefore (env : Env) (cfg : Config) (s : ChainManager) (k : ℕ) (fork : Fork)
    (idx : ℕ) : Prop :=
  ∃ t total, reorg env cfg k fork s = .ok () t ∧ t.mainChain = s.mainChain ∧
    t.chainstate = s.chainstate ∧
    t.forks = s.forks.set k { fork with
      headerChain := fork.headerChain.take idx, totalDifficulty := total } ∧
    total + totalOf (fork.headerChain.drop idx) = fork.totalDifficulty

theorem Outweighed.settled {wallet : Store.Coins.Wallet} (hs : create env cfg wallet = .ok s₀)
    (h : Outweighed env cfg (Regular env cfg) s₀ s k fork) :
    Settled env cfg s ∧ fork ∈ s.forks := by
  cases h with
  | reached hrun hk _ => exact ⟨settled_of_run hs hrun, List.mem_of_getElem? hk⟩
  | @grown s k fork block hrun hreg hoff hfind htakes _ =>
    have hset := settled_of_run hs hrun
    obtain ⟨hlt, -⟩ := List.getElem?_eq_some_iff.mp (findFork_some hfind).2.1
    have hmem := List.mem_of_getElem? (findFork_some hfind).2.1
    obtain ⟨heven, htotal, -⟩ := hset.covered.grown hset.epoch hmem htakes fork.head
    obtain ⟨hsound, -, -⟩ := hset.sound.forked hfind (hreg.1 _ (.fork hoff hfind htakes)).1
    have hshort := hset.epoch.forks fork hmem
    have hbpe := cfg.blocksPerEpoch.toNat_lt
    refine ⟨⟨hsound, ⟨hset.covered.total, hset.covered.set heven htotal⟩,
      ⟨hset.epoch.main, fun f hf ↦ ?_⟩, hset.pool⟩, List.mem_set hlt _⟩
    rcases List.mem_or_eq_of_mem_set hf with hf | rfl
    · exact hset.epoch.forks f hf
    · exact grown_lt (by omega) (by omega) htakes _

theorem identified_of_ledger (h : Ledger env cfg (Valid env cfg) blocks cs) :
    ∀ b ∈ blocks, Identified env.toSodium b := by
  induction h with
  | genesis hgen =>
    intro b hb
    rw [List.mem_singleton.mp hb]
    exact identified_of_takeable (genesis_takeable hgen)
  | append _ _ _ htake _ _ ih =>
    intro b hb
    rcases List.mem_append.mp hb with hb | hb
    · exact ih b hb
    · rw [List.mem_singleton.mp hb]
      exact identified_of_takeable htake

theorem MadeOf.rescan (h : MadeOf env cfg s blocks) (w : Store.Coins.Wallet) :
    ∃ w', Store.Coins.rescan env.toSodium s.mainChain.headerChain s.blockStore w = .ok () w' := by
  have hids := identified_of_ledger h.ledger
  have hstored := h.stored
  rw [Store.Coins.rescan, run_bind_modify, h.chain]
  generalize ({ w with coins := ∅ } : Store.Coins.Wallet) = w
  clear h
  induction blocks generalizing w with
  | nil => exact ⟨w, rfl⟩
  | cons block blocks ih =>
    obtain ⟨w', hw'⟩ := ih (fun b hb ↦ hids b (by simp [hb])) (fun b hb ↦ hstored b (by simp [hb]))
      (block.transactions.foldl (receiveAll env.toSodium) (Store.Coins.spendBlock block w))
    refine ⟨w', ?_⟩
    rw [List.map_cons, forM_cons, show block.header.hash env.toSodium = block.hash env.toSodium from rfl,
      getBlock_of_lookup (hstored block (by simp)), run_bind_ofExcept_ok, run_bind_modify,
      filterBlock_run (hids block (by simp)).txids]
    exact hw'

theorem stored_ext {store : MemBlockStore} {blocks' : List Block}
    (h : ∀ b ∈ blocks, Stored env store b) (h' : ∀ b ∈ blocks', Stored env store b)
    (he : blocks.map Block.header = blocks'.map Block.header) : blocks = blocks' := by
  induction blocks generalizing blocks' with
  | nil => exact (List.map_eq_nil_iff.mp he.symm).symm
  | cons b blocks ih =>
    cases blocks' with
    | nil => cases he
    | cons b' blocks' =>
      rw [List.map_cons, List.map_cons, List.cons.injEq] at he
      have hhash : b.hash env.toSodium = b'.hash env.toSodium :=
        congrArg (BlockHeader.hash env.toSodium) he.1
      have hb := h b (by simp)
      rw [Stored, hhash, h' b' (by simp)] at hb
      rw [Option.some.inj hb, ih (fun x hx ↦ h x (by simp [hx])) (fun x hx ↦ h' x (by simp [hx])) he.2]

theorem Underway.madeOf {src : ℕ} (h : Underway env cfg s src 0 t) (hs : MadeOf env cfg s blocks) :
    MadeOf env cfg t (blocks.take (src + 1)) := by
  obtain ⟨blocks', hblocks', hled, hall⟩ := h.sound.main
  obtain ⟨done, hchain, hnil⟩ := h.chain
  rw [List.length_eq_zero_iff.mp hnil, List.append_nil, hs.chain, ← List.map_take] at hchain
  obtain rfl : blocks' = blocks.take (src + 1) := by
    refine stored_ext hall (fun b hb ↦ ?_) (hblocks'.symm.trans hchain)
    exact h.grows _ _ (hs.stored b (List.mem_of_mem_take hb))
  exact ⟨hblocks', hled, hall⟩

/-- The phases of a reorg to a fork that loses. -/
theorem reorg_lost {srcHeader : BlockHeader} {cut u v w : ChainManager} {trimmed : Fork}
    {wallet : Store.Coins.Wallet}
    (hsrc : s.mainChain.headerChain[fork.chainSrc.toNat]? = some srcHeader)
    (hcut : rewindHeaders env (s.mainChain.headerChain.drop (fork.chainSrc.toNat + 1)).reverse s =
      .ok () cut)
    (hfork : appendFork env cfg 0 fork.headerChain (truncated (fork.chainSrc.toNat + 1) cut) =
      .ok (some idx) u)
    (hlost : rewindHeaders env (u.mainChain.headerChain.drop (fork.chainSrc.toNat + 1)).reverse u =
      .ok () v)
    (hback : reappendOld env cfg (s.mainChain.headerChain.drop (fork.chainSrc.toNat + 1))
      (truncated (fork.chainSrc.toNat + 1) v) = .ok () w)
    (htrim : trimFork fork idx = .ok trimmed)
    (hscan : Store.Coins.rescan env.toSodium w.mainChain.headerChain w.blockStore w.wallet =
      .ok () wallet) :
    reorg env cfg k fork s =
      .ok () { restored k trimmed s.mainChain.totalDifficulty w with wallet := wallet } := by
  have hend : onWallet (Store.Coins.rescan env.toSodium w.mainChain.headerChain w.blockStore)
      (restored k trimmed s.mainChain.totalDifficulty w) =
      .ok () { restored k trimmed s.mainChain.totalDifficulty w with wallet := wallet } :=
    focus_of_ok hscan
  rw [reorg_eq hsrc, run_bind_of_ok hcut, run_bind_modify, run_bind_of_ok hfork]
  dsimp only
  rw [run_bind_get, run_bind_of_ok hlost, run_bind_modify, run_bind_of_ok hback, htrim,
    run_bind_ofExcept_ok, run_bind_modify, run_bind_get]
  exact hend

theorem reorg_start (hrun : reorg env cfg k fork s = .ok () t) :
    ∃ srcHeader, s.mainChain.headerChain[fork.chainSrc.toNat]? = some srcHeader := by
  cases hsrc : s.mainChain.headerChain[fork.chainSrc.toNat]? with
  | none =>
    rw [reorg] at hrun
    simp only [run_bind_get, headerAt, hsrc, run_bind_ofExcept_error] at hrun
    cases hrun
  | some srcHeader => exact ⟨srcHeader, rfl⟩

theorem pos_of_lost {cut u : ChainManager}
    (hcut : rewindHeaders env (s.mainChain.headerChain.drop (fork.chainSrc.toNat + 1)).reverse s =
      .ok () cut)
    (hfork : appendFork env cfg 0 fork.headerChain (truncated (fork.chainSrc.toNat + 1) cut) =
      .ok (some idx) u)
    (hrun : reorg env cfg k fork s = .ok () t) : 0 < idx := by
  obtain ⟨srcHeader, hsrc⟩ := reorg_start hrun
  rw [reorg_eq hsrc, run_bind_of_ok hcut, run_bind_modify, run_bind_of_ok hfork] at hrun
  dsimp only at hrun
  rw [run_bind_get] at hrun
  obtain ⟨-, v, -, hrun⟩ := run_bind_ok.mp hrun
  rw [run_bind_modify] at hrun
  obtain ⟨-, w, -, hrun⟩ := run_bind_ok.mp hrun
  cases htrim : trimFork fork idx with
  | error e =>
    rw [htrim, run_bind_ofExcept_error] at hrun
    cases hrun
  | ok trimmed => exact (trimFork_ok htrim).1

theorem not_returned_of_throw {cut w : ChainManager} {e : Failure}
    (hcut : rewindHeaders env (s.mainChain.headerChain.drop (fork.chainSrc.toNat + 1)).reverse s =
      .ok () cut)
    (hfork : appendFork env cfg 0 fork.headerChain (truncated (fork.chainSrc.toNat + 1) cut) =
      .error e w) : reorg env cfg k fork s ≠ .ok () t := by
  intro hrun
  obtain ⟨srcHeader, hsrc⟩ := reorg_start hrun
  rw [reorg_eq hsrc, run_bind_of_ok hcut, run_bind_modify, run_bind_of_error hfork] at hrun
  contradiction

theorem leavesAsBefore_of_refused {wallet : Store.Coins.Wallet} {cut u : ChainManager}
    (hs : create env cfg wallet = .ok s₀)
    (hfork : Outweighed env cfg (Regular env cfg) s₀ s k fork)
    (hcut : rewindHeaders env (s.mainChain.headerChain.drop (fork.chainSrc.toNat + 1)).reverse s =
      .ok () cut)
    (happend : appendFork env cfg 0 fork.headerChain (truncated (fork.chainSrc.toNat + 1) cut) =
      .ok (some idx) u)
    (hclear : ∀ x ∈ s.mainChain.headerChain.drop (fork.chainSrc.toNat + 1), ∀ b,
      s.blockStore.lookup (x.hash env.toSodium) = some b → Clear env.toSodium s.memPool b)
    (hsrc : fork.chainSrc.toNat < s.mainChain.headerChain.length) (hidx : 0 < idx) :
    LeavesAsBefore env cfg s k fork idx := by
  obtain ⟨hset, hmem⟩ := hfork.settled hs
  obtain ⟨heven, htotal⟩ := hset.covered.forks fork hmem
  obtain ⟨-, hheld⟩ := hset.sound.forks fork hmem
  have hshort := hset.epoch.forks fork hmem
  have hbpe := cfg.blocksPerEpoch.toNat_lt
  obtain ⟨blocks, hblocks, hled, hall⟩ := hset.sound.main
  have hmade : MadeOf env cfg s blocks := ⟨hblocks, hled, hall⟩
  -- off with the old tail, on with the fork, off with the fork
  obtain ⟨cs, hrun, hway⟩ :=
    (Underway.start hset.sound hset.pool hset.covered.total).cut hsrc
  obtain rfl := (EStateM.Result.ok.inj (hcut.symm.trans hrun)).2
  have hpost := hway.appendFork hsrc (by omega) hheld (E := fun _ _ ↦ True)
    fun _ _ _ _ ↦ trivial
  rw [Post, happend] at hpost
  obtain ⟨hlt, m, hway'⟩ := hpost
  obtain ⟨cs', hlost, hbase⟩ := hway'.cut hsrc
  -- on with the old tail
  have htail : s.mainChain.headerChain.drop (fork.chainSrc.toNat + 1) =
      (blocks.drop (fork.chainSrc.toNat + 1)).map Block.header := by
    rw [hblocks, List.map_drop]
  rw [← List.take_append_drop (fork.chainSrc.toNat + 1) blocks] at hled
  obtain ⟨w, hback, hend, hforks⟩ := (hbase.madeOf hmade).reappendOld hled
    (fun b hb ↦ hbase.grows _ _ (hall b (List.mem_of_mem_drop hb))) hbase.pool.indexed
    fun b hb ↦ (hclear b.header (by rw [htail]; exact List.mem_map_of_mem hb) b
      (hall b (List.mem_of_mem_drop hb))).shrunk hbase.pool
  rw [List.take_append_drop] at hend
  rw [← htail] at hback
  obtain ⟨wallet', hscan⟩ := hend.rescan w.wallet
  have htrim : ∃ trimmed, trimFork fork idx = .ok trimmed := ⟨_, if_neg hidx.ne'⟩
  obtain ⟨trimmed, htrim⟩ := htrim
  obtain ⟨hsum, -⟩ := covered_trim heven htotal hlt.le htrim
  have hreorg := reorg_lost (k := k) (List.getElem?_eq_getElem hsrc) hcut happend hlost hback
    htrim hscan
  obtain ⟨-, rfl⟩ := trimFork_ok htrim
  refine ⟨_, _, hreorg, ?_, ?_, ?_, hsum⟩
  · exact congrArg (MainChain.mk · s.mainChain.totalDifficulty) (hend.chain.trans hblocks.symm)
  · exact hend.ledger.unique hmade.ledger
  · exact congrArg (List.set · k _) (hforks.trans hbase.forks)

/-- A reorg that loses leaves everything as before just when its branch point
exists, it has taken in at least one block of the fork, and the one that fails is
refused without an exception. -/
theorem failed_reorg_iff {wallet : Store.Coins.Wallet} {u : ChainManager}
    (hs : create env cfg wallet = .ok s₀)
    (hfork : Outweighed env cfg (Regular env cfg) s₀ s k fork)
    (hfails : FirstFailing env cfg s fork idx block u)
    (hclear : ∀ x ∈ s.mainChain.headerChain.drop (fork.chainSrc.toNat + 1), ∀ b,
      s.blockStore.lookup (x.hash env.toSodium) = some b → Clear env.toSodium s.memPool b) :
    LeavesAsBefore env cfg s k fork idx ↔ fork.chainSrc.toNat < s.mainChain.headerChain.length ∧
      0 < idx ∧ appendBlock env cfg block none u = .ok false u := by
  obtain ⟨cut, hcut, ⟨hfalse, happend⟩ | ⟨hthrow, e, w, herror⟩⟩ := hfails.appendFork
  · rw [and_iff_left hfalse]
    constructor
    · rintro ⟨t, total, hrun, -⟩
      obtain ⟨srcHeader, hsrc⟩ := reorg_start hrun
      exact ⟨(List.getElem?_eq_some_iff.mp hsrc).1, pos_of_lost hcut happend hrun⟩
    · rintro ⟨hsrc, hidx⟩
      exact leavesAsBefore_of_refused hs hfork hcut happend hclear hsrc hidx
  · refine iff_of_false ?_ fun h ↦ hthrow u h.2.2
    rintro ⟨t, total, hrun, -⟩
    exact not_returned_of_throw hcut herror hrun
end Reorg

section Sample

open Store.ChainstateKeys

def Novel (env : Env) (s : ChainManager) : Event → Prop
  | .block block none => s.blockStore.lookup (block.hash env.toSodium) = none ∧
      (createdIn env.toSodium [block]).Nodup ∧ ∀ h ∈ s.blockStore.keys,
        ∀ b ∈ s.blockStore.lookup h, ∀ key ∈ createdIn env.toSodium [b],
          key ∉ createdIn env.toSodium [block]
  | _ => False

instance (s : ChainManager) (event : Event) : Decidable (Novel env s event) :=
  match event with
  | .block _ none => inferInstanceAs (Decidable (_ ∧ _))
  | .block _ (some _) => .isFalse not_false
  | .tx _ => .isFalse not_false
  | .computation _ => .isFalse not_false

theorem Novel.received {event : Event} (h : Novel env s event) : Received s event := by
  match event, h with
  | .block _ none, _ => rfl

theorem Novel.regular {event : Event} (h : Novel env s event) : Regular env cfg s event := by
  match event, h with
  | .block block none, ⟨hnew, hnd, hapart⟩ =>
    refine ⟨fun head _ ↦ ⟨⟨fun old hold ↦ ?_, fun blocks cs prev hled hall _ _ _ ↦ ?_⟩, by simp⟩,
      trivial⟩
    · exact absurd (hnew.symm.trans hold) (by simp)
    · have hsplit : createdIn env.toSodium (blocks ++ [link env head block]) =
          createdIn env.toSodium blocks ++ createdIn env.toSodium [block] := by
        simp [createdIn, chainTxs]
      rw [hsplit]
      refine List.nodup_append.mpr ⟨hled.keyed.1, hnd, fun key hkey key' hkey' he ↦ ?_⟩
      obtain ⟨tx, htx, hkey⟩ := List.mem_flatMap.mp hkey
      obtain ⟨b, hb, htx⟩ := List.mem_flatMap.mp htx
      have hstored := hall b hb
      refine hapart _ (Finmap.mem_keys.mpr (Finmap.lookup_isSome.mp hstored.isSome)) b hstored key
        ?_ (he ▸ hkey')
      exact List.mem_flatMap.mpr ⟨tx, by simpa [chainTxs] using htx, hkey⟩

theorem Outweighed.mono {C C' : ChainManager → Event → Prop} {s₀ : ChainManager} {k : ℕ}
    (h : Outweighed env cfg C s₀ s k fork) (hC : ∀ s event, C s event → C' s event) :
    Outweighed env cfg C' s₀ s k fork := by
  cases h with
  | reached hrun hk hlt => exact .reached (hrun.mono hC) hk hlt
  | grown hrun hreg hoff hfind htakes hlt =>
    exact .grown (hrun.mono hC) (hC _ _ hreg) hoff hfind htakes hlt

def refusedAt (env : Env) (cfg : Config) (s : ChainManager) (fork : Fork) : Option ℕ :=
  match rewindHeaders env (s.mainChain.headerChain.drop (fork.chainSrc.toNat + 1)).reverse s with
  | .error _ _ => none
  | .ok _ cut =>
    match appendFork env cfg 0 fork.headerChain (truncated (fork.chainSrc.toNat + 1) cut) with
    | .error _ _ => none
    | .ok r _ => r

theorem firstFailing_of_refusedAt {idx : ℕ} (h : refusedAt env cfg s fork = some idx) :
    ∃ block u, FirstFailing env cfg s fork idx block u ∧
      appendBlock env cfg block none u = .ok false u := by
  rw [refusedAt] at h
  split at h
  · cases h
  · next cut hcut =>
    split at h
    · cases h
    · next r u hu =>
      subst h
      obtain ⟨n, hn, hbefore, header, block, hheader, hb, hfalse⟩ := tried_of_refused hu
      obtain rfl : idx = n := by rw [hn, Nat.zero_add]
      exact ⟨block, u, ⟨⟨cut, hcut, hbefore⟩, ⟨header, hheader, hb⟩, by simp [hfalse]⟩, hfalse⟩

/-- After the given blocks one more sets off a reorg that refuses a block at
position `idx`. -/
def Losing (events : List Event) (block : Block) (idx : ℕ) : Prop :=
  ∃ s ∈ handleAll (Novel sampleEnv) sampleEnv sampleConfig events sampleStart,
    ∃ r ∈ findFork sampleEnv block.header 0 s.forks,
      let fork := grown r.2 (link sampleEnv r.2.head block).header
      (Novel sampleEnv s (.block block none) ∧ OffMain sampleEnv s block none ∧
        ForkTakes sampleEnv sampleConfig r.2 block.header ∧
        s.mainChain.totalDifficulty < fork.totalDifficulty) ∧
      refusedAt sampleEnv sampleConfig (forked sampleEnv s r.1 r.2 block) fork = some idx ∧
      fork.chainSrc.toNat < s.mainChain.headerChain.length ∧ s.memPool.txStorage = ∅

instance (events : List Event) (block : Block) (idx : ℕ) : Decidable (Losing events block idx) := by
  unfold Losing
  infer_instance

theorem Losing.outweighed {events : List Event} {block : Block} {idx : ℕ}
    (h : Losing events block idx) : ∃ s k fork,
      Outweighed sampleEnv sampleConfig (fun s event ↦ Novel sampleEnv s event) sampleStart s k fork ∧
      (∃ b u, FirstFailing sampleEnv sampleConfig s fork idx b u ∧
        appendBlock sampleEnv sampleConfig b none u = .ok false u) ∧
      fork.chainSrc.toNat < s.mainChain.headerChain.length ∧ s.memPool.txStorage = ∅ := by
  obtain ⟨s, hs, r, hr, ⟨hnovel, hoff, htakes, hlt⟩, hrefused, hsrc, hpool⟩ := h
  exact ⟨_, _, _, .grown (handleAll_run .start hs) hnovel hoff hr htakes hlt,
    firstFailing_of_refusedAt hrefused, hsrc, hpool⟩

/-- A block whose coinbase is below the reward. Forks do not look at it. -/
def underpaid (prev : Block) (timestamp : Int64) : Block :=
  sampleBlock prev timestamp [coinbaseTransaction sampleKey 1 timestamp.toUInt64.toUInt32]

/-- The second block of the branch is refused. -/
theorem failed_reorg_second : ∃ s k fork block u,
    FirstFailing sampleEnv sampleConfig s fork 1 block u ∧
      LeavesAsBefore sampleEnv sampleConfig s k fork 1 := by
  have hlosing : Losing [.block (arriving sampleGenesis 1) none, .block (arriving sampleGenesis 2) none]
      (underpaid (arriving sampleGenesis 2) 3) 1 := by decide +kernel
  obtain ⟨s, k, fork, hout, ⟨block, u, hfails, hfalse⟩, hsrc, hpool⟩ := hlosing.outweighed
  refine ⟨s, k, fork, block, u, hfails, (failed_reorg_iff create_sample
    (hout.mono fun _ _ ↦ Novel.regular) hfails ?_).mpr ⟨hsrc, Nat.one_pos, hfalse⟩⟩
  intro x _ b _ tx _ txid _ q hq
  simp [hpool] at hq

/-- The first block of the branch is refused, and the fork is never trimmed. -/
theorem refused_first_hangs :
    ¬ ∀ (env : Env) (cfg : Config) (wallet : Store.Coins.Wallet) (s₀ s : ChainManager) (k : ℕ)
      (fork : Fork) (idx : ℕ) (block : Block) (u : ChainManager),
      create env cfg wallet = .ok s₀ → Outweighed env cfg Received s₀ s k fork →
      FirstFailing env cfg s fork idx block u → LeavesAsBefore env cfg s k fork idx := by
  intro h
  have hlosing : Losing [.block (arriving sampleGenesis 1) none, .block (underpaid sampleGenesis 2) none]
      (arriving (underpaid sampleGenesis 2) 3) 0 := by decide +kernel
  obtain ⟨s, k, fork, hout, ⟨block, u, hfails, -⟩, -, -⟩ := hlosing.outweighed
  obtain ⟨t, total, hrun, -⟩ := h _ _ _ _ _ _ _ _ _ _ create_sample
    (hout.mono fun _ _ ↦ Novel.received) hfails
  obtain ⟨cut, hcut, ⟨-, happend⟩ | ⟨-, e, w, herror⟩⟩ := hfails.appendFork
  · exact Nat.lt_irrefl 0 (pos_of_lost hcut happend hrun)
  · exact not_returned_of_throw hcut herror hrun

end Sample

end FheBlockchain.Chain.Rollback
