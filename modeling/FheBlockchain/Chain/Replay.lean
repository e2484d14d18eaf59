import FheBlockchain.Chain.Node
import FheBlockchain.Chain.Placement

namespace FheBlockchain.Chain.Replay

open Core.Transactions Core.Blocks Store.ChainstateEffects Store.ChainstateRewind
open Store.ChainstateKeys Store.Pools Validation ValidationFacts Manager AppendFacts Accepted
open Ledgers ReorgFacts Placement Node
open Store.Chainstate hiding M addBlock
open Library.Execution Library.Results

variable {env : Env} {cfg : Config} {V : List Block → MemChainstate → Block → Prop}
variable {s t : ChainManager} {block : Block} {store store' : MemBlockStore}

def Stored (env : Env) (store : MemBlockStore) (block : Block) : Prop :=
  store.lookup (block.hash env.toSodium) = some block

def replay (env : Env) (store : MemBlockStore) (chain : List BlockHeader) :
    Store.Chainstate.M Unit :=
  chain.zipIdx.forM fun header ↦ do
    let block ← Exec.ofExcept (store.getBlock (header.1.hash env.toSodium))
    Store.Chainstate.addBlock env.toSodium block (UInt32.ofNat header.2)

theorem forM_append_of_ok {ε υ σ γ : Type} {f : γ → Exec ε υ σ Unit} {as bs : List γ} {s t : σ}
    (h : as.forM f s = .ok () t) : (as ++ bs).forM f s = bs.forM f t := by
  induction as generalizing s with
  | nil =>
    cases h
    rfl
  | cons a as ih =>
    rw [forM_cons] at h
    rw [List.cons_append, forM_cons]
    cases ha : f a s with
    | ok _ u =>
      rw [ha] at h
      exact ih h
    | error e u => simp [ha] at h

theorem replay_ledger {blocks : List Block} {cs : MemChainstate} (h : Ledger env cfg V blocks cs)
    (hstored : ∀ b ∈ blocks, Stored env store b) :
    replay env store (blocks.map Block.header) .empty = .ok () cs := by
  have hone {b : Block} {cs cs' : MemChainstate} {height : ℕ} (hb : Stored env store b)
      (hadd : Store.Chainstate.addBlock env.toSodium b (UInt32.ofNat height) cs = .ok () cs') :
      (do
        let block ← Exec.ofExcept (store.getBlock (b.header.hash env.toSodium))
        Store.Chainstate.addBlock env.toSodium block (UInt32.ofNat height) :
          Store.Chainstate.M Unit) cs = .ok () cs' := by
    rw [show b.header.hash env.toSodium = b.hash env.toSodium from rfl, getBlock_of_lookup hb,
      run_bind_ofExcept_ok, hadd]
  induction h with
  | @genesis genesis hgen =>
    have hadd := (genesis_takeable hgen).addBlock_run 0
    rw [replay, List.map_singleton, List.zipIdx_singleton, forM_cons,
      hone (hstored genesis (by simp)) hadd]
    rfl
  | @append blocks block prev cs _ _ _ htake _ _ ih =>
    have hadd := htake.addBlock_run (UInt32.ofNat blocks.length)
    rw [replay, List.map_append, List.zipIdx_append,
      forM_append_of_ok (ih fun b hb ↦ hstored b (by simp [hb]))]
    simp only [List.map_singleton, List.zipIdx_singleton, List.length_map, Nat.zero_add]
    rw [forM_cons, hone (hstored block (by simp)) hadd]
    rfl

section Store

/-- A block that may be stored: nothing else is stored under its hash, and it
creates new keys only wherever it can be taken on top of stored blocks. -/
structure Storable (env : Env) (cfg : Config) (V : List Block → MemChainstate → Block → Prop)
    (store : MemBlockStore) (block : Block) : Prop where
  same : ∀ old, store.lookup (block.hash env.toSodium) = some old → old = block
  fresh : ∀ blocks cs prev, Ledger env cfg V blocks cs → (∀ b ∈ blocks, Stored env store b) →
    blocks.getLast? = some prev → block.header.prevBlockHeader = some (prev.hash env.toSodium) →
    Takeable env.toSodium cs block → (createdIn env.toSodium (blocks ++ [block])).Nodup

/-- A block store in which every block is linked to a stored one and creates new
keys only. -/
structure StoreSound (env : Env) (cfg : Config) (V : List Block → MemChainstate → Block → Prop)
    (store : MemBlockStore) : Prop where
  hashes : ∀ h b, store.lookup h = some b → h = b.hash env.toSodium
  closed : ∀ b p, Stored env store b → b.header.prevBlockHeader = some p →
    (store.lookup p).isSome
  fresh : ∀ b, Stored env store b → Storable env cfg V store b

def Grows (store store' : MemBlockStore) : Prop :=
  ∀ h b, store.lookup h = some b → store'.lookup h = some b

theorem Grows.isSome (hg : Grows store store') {h : Bytes} (hs : (store.lookup h).isSome) :
    (store'.lookup h).isSome := by
  obtain ⟨b, hb⟩ := Option.isSome_iff_exists.mp hs
  rw [hg h b hb]
  rfl

theorem Stored.isSome (h : Stored env store block) :
    (store.lookup (block.hash env.toSodium)).isSome := by
  rw [Stored] at h
  rw [h]
  rfl

theorem storeBlock_lookup (h hash : Bytes) (b : Block) :
    (store.storeBlock hash b).1.lookup h =
      if h = hash then (store.lookup hash).or (some b) else store.lookup h := by
  rw [MemBlockStore.storeBlock]
  cases hold : store.lookup hash with
  | none => simp [Library.FiniteMap.lookup_insert_ite]
  | some old =>
    simp only [Option.isSome_some, if_true, Option.some_or]
    split_ifs with hh
    · rw [hh, hold]
    · rfl

theorem grows_storeBlock (store : MemBlockStore) (hash : Bytes) (b : Block) : Grows store (store.storeBlock hash b).1 := by
  intro h x hx
  rw [storeBlock_lookup]
  split_ifs with hh
  · rw [← hh, hx, Option.some_or]
  · exact hx

theorem stored_storeBlock (h : ∀ old, store.lookup (block.hash env.toSodium) = some old →
    old = block) : Stored env (store.storeBlock (block.hash env.toSodium) block).1 block := by
  rw [Stored, storeBlock_lookup, if_pos rfl]
  cases hold : store.lookup (block.hash env.toSodium) with
  | none => rfl
  | some old => rw [h old hold, Option.some_or]

theorem storeBlock_cases {hash k : Bytes} {b b' : Block}
    (hk : (store.storeBlock hash b).1.lookup k = some b') :
    store.lookup k = some b' ∨ store.lookup hash = none ∧ k = hash ∧ b' = b := by
  rw [storeBlock_lookup] at hk
  split_ifs at hk with he
  · rcases Option.or_eq_some_iff.mp hk with hold | ⟨hnone, hnew⟩
    · exact .inl (he ▸ hold)
    · exact .inr ⟨hnone, he, (Option.some.inj hnew).symm⟩
  · exact .inl hk

theorem post_append_store {P : MemBlockStore → Prop} {v : Option (List (List UInt64))}
    (hP : ∀ head txs, Ready env cfg s block v head txs →
      P (s.blockStore.storeBlock (block.hash env.toSodium) (link env head block)).1)
    (hs : P s.blockStore) :
    Post (appendBlock env cfg block v) s (fun _ t ↦ P t.blockStore) fun _ t ↦ P t.blockStore := by
  have hgrown {t : ChainManager} (ht : Appended env cfg s block v t) : P t.blockStore := by
    rcases ht with rfl | ⟨head, txs, hr, hgrown⟩
    · exact hs
    · rcases hgrown.store with hstore | hstore
      · rwa [hstore]
      · rw [hstore]
        exact hP head txs hr
  exact (post_append_chain s block v).mono (fun _ _ ht ↦ hgrown ht) fun _ _ ht ↦ hgrown ht

/-- What storing any linked block keeps, every event keeps. -/
theorem post_handle_store {P : MemBlockStore → Prop}
    (hP : ∀ store head block, P store →
      P (store.storeBlock (block.hash env.toSodium) (link env head block)).1)
    (hs : P s.blockStore) (event : Event) :
    Post (handle env cfg event) s (fun _ t ↦ P t.blockStore) (fun _ t ↦ P t.blockStore) := by
  cases event with
  | tx tx =>
    refine (addTx_sameChains s tx).mono (fun _ t ht ↦ ?_) fun _ t ht ↦ ?_ <;> rwa [ht.blockStore]
  | computation comp => exact hs
  | block block mined =>
    refine post_addBlock (Q := fun t ↦ P t.blockStore) hs (fun _ _ _ ht ↦ ht)
      (fun _ ↦ (post_append_store (fun head _ _ ↦ hP _ head block hs) hs).mono (fun _ _ ht _ ↦ ht)
        fun _ _ ht ↦ ht)
      (fun k fork _ _ _ ↦ ⟨fun _ ↦ ?_, fun _ ↦ ?_⟩) fun i src total _ _ _ _ ↦ ?_
    · exact hP s.blockStore fork.head block hs
    · exact post_reorg_store (fun t _ b ht _ ↦ post_append_store (fun head _ _ ↦ hP _ head b ht) ht)
        (hP s.blockStore fork.head block hs)
    · exact hP s.blockStore src block hs

theorem linked_of_mem {blocks : List Block} {cs : MemChainstate} {last b : Block}
    (h : Ledger env cfg V blocks cs) (hlast : blocks.getLast? = some last) (hb : b ∈ blocks) :
    b = last ∨ ∃ c ∈ blocks, c.header.prevBlockHeader = some (b.hash env.toSodium) := by
  induction h generalizing last with
  | genesis =>
    simp only [List.getLast?_singleton, Option.some.injEq, List.mem_singleton] at hlast hb
    exact .inl (hb.trans hlast)
  | @append blocks block prev cs hold hprev hlink _ _ _ ih =>
    rw [List.getLast?_concat, Option.some.injEq] at hlast
    rw [List.mem_append, List.mem_singleton] at hb
    rcases hb with hb | rfl
    · refine .inr ?_
      rcases ih hprev hb with rfl | ⟨c, hc, hcb⟩
      · exact ⟨block, by simp, hlink⟩
      · exact ⟨c, by simp [hc], hcb⟩
    · exact .inl hlast

theorem StoreSound.storeBlock (h : StoreSound env cfg V store)
    (hb : Storable env cfg V store block) {p : Bytes}
    (hlink : block.header.prevBlockHeader = some p) (hp : (store.lookup p).isSome) :
    StoreSound env cfg V (store.storeBlock (block.hash env.toSodium) block).1 := by
  cases hold : store.lookup (block.hash env.toSodium) with
  | some old =>
    rw [MemBlockStore.storeBlock, hold]
    exact h
  | none =>
    have hgrow := grows_storeBlock store (block.hash env.toSodium) block
    have hlook (h : Bytes) : (store.storeBlock (block.hash env.toSodium) block).1.lookup h =
        if h = block.hash env.toSodium then some block else store.lookup h := by
      rw [storeBlock_lookup, hold, Option.none_or]
    have hcases {b : Block}
        (hst : Stored env (store.storeBlock (block.hash env.toSodium) block).1 b) :
        b = block ∨ Stored env store b := by
      rw [Stored, hlook] at hst
      split_ifs at hst
      · exact .inl (Option.some.inj hst).symm
      · exact .inr hst
    have hclosed : ∀ b q, Stored env (store.storeBlock (block.hash env.toSodium) block).1 b →
        b.header.prevBlockHeader = some q → (store.lookup q).isSome := by
      intro b q hst hq
      rcases hcases hst with rfl | hst
      · rw [hlink] at hq
        exact Option.some.inj hq ▸ hp
      · exact h.closed b q hst hq
    -- No block is linked to the new one, so a ledger below a stored block has old blocks only.
    have hbelow {blocks : List Block} {cs : MemChainstate} {b prev : Block}
        (hst : Stored env (store.storeBlock (block.hash env.toSodium) block).1 b)
        (hled : Ledger env cfg V blocks cs)
        (hall : ∀ x ∈ blocks, Stored env (store.storeBlock (block.hash env.toSodium) block).1 x)
        (hprev : blocks.getLast? = some prev)
        (hbl : b.header.prevBlockHeader = some (prev.hash env.toSodium)) :
        ∀ x ∈ blocks, Stored env store x := by
      intro x hx
      have hsome : (store.lookup (x.hash env.toSodium)).isSome := by
        rcases linked_of_mem hled hprev hx with rfl | ⟨c, hc, hcx⟩
        · exact hclosed b _ hst hbl
        · exact hclosed c _ (hall c hc) hcx
      rcases hcases (hall x hx) with rfl | hst
      · rw [hold] at hsome
        contradiction
      · exact hst
    refine ⟨fun k b hk ↦ ?_, fun b q hst hq ↦ ?_, fun b hst ↦ ⟨fun old ho ↦ ?_, ?_⟩⟩
    · rw [hlook] at hk
      split_ifs at hk with hkb
      · rw [hkb, Option.some.inj hk]
      · exact h.hashes k b hk
    · obtain ⟨x, hx⟩ := Option.isSome_iff_exists.mp (hclosed b q hst hq)
      rw [hgrow q x hx]
      rfl
    · rw [Stored, ho] at hst
      exact Option.some.inj hst
    · intro blocks cs prev hled hall hprev hbl htake
      have hall' := hbelow hst hled hall hprev hbl
      rcases hcases hst with rfl | hst
      · exact hb.fresh blocks cs prev hled hall' hprev hbl htake
      · exact (h.fresh b hst).fresh blocks cs prev hled hall' hprev hbl htake

end Store

section Invariant

def Held (env : Env) (store : MemBlockStore) (header : BlockHeader) : Prop :=
  ∃ b, store.lookup (header.hash env.toSodium) = some b ∧ b.header.prevBlockHeader.isSome

theorem Held.mono {header : BlockHeader} (h : Held env store header) (hg : Grows store store') :
    Held env store' header := by
  obtain ⟨b, hb, hl⟩ := h
  exact ⟨b, hg _ _ hb, hl⟩

/-- The main chain is a ledger of stored blocks, and the forks are in the store. -/
structure Sound (env : Env) (cfg : Config) (V : List Block → MemChainstate → Block → Prop)
    (s : ChainManager) : Prop where
  main : ∃ blocks, s.mainChain.headerChain = blocks.map Block.header ∧
    Ledger env cfg V blocks s.chainstate ∧ ∀ b ∈ blocks, Stored env s.blockStore b
  store : StoreSound env cfg V s.blockStore
  forks : ∀ f ∈ s.forks,
    (s.blockStore.lookup (f.chainSrcHeader.hash env.toSodium)).isSome ∧
      ∀ h ∈ f.headerChain, Held env s.blockStore h

theorem Sound.congr (h : Sound env cfg V s)
    (hchain : t.mainChain.headerChain = s.mainChain.headerChain) (hcs : t.chainstate = s.chainstate)
    (hstore : t.blockStore = s.blockStore) (hforks : t.forks = s.forks) : Sound env cfg V t := by
  refine ⟨?_, ?_, ?_⟩
  · rw [hchain, hcs, hstore]
    exact h.main
  · rw [hstore]
    exact h.store
  · rw [hforks, hstore]
    exact h.forks

def Fit (env : Env) (cfg : Config) (V : List Block → MemChainstate → Block → Prop)
    (s : ChainManager) (block : Block) (v : Option (List (List UInt64))) : Prop :=
  ∀ head txs, Ready env cfg s block v head txs →
    Storable env cfg V s.blockStore (link env head block) ∧
      Takeable env.toSodium s.chainstate block ∧
      ∀ blocks, s.mainChain.headerChain = blocks.map Block.header →
        V blocks s.chainstate (link env head block)

theorem Sound.extend {v : Option (List (List UInt64))} {head : BlockHeader} {txs : List PooledTx}
    (h : Sound env cfg V s) (hr : Ready env cfg s block v head txs) (hfit : Fit env cfg V s block v)
    (hchain : t.mainChain.headerChain =
      s.mainChain.headerChain ++ [(link env head block).header])
    (hcs : t.chainstate = applyAll (nextEffects env s block) s.chainstate)
    (hstore : t.blockStore =
      (s.blockStore.storeBlock (block.hash env.toSodium) (link env head block)).1)
    (hforks : t.forks = s.forks) : Sound env cfg V t := by
  obtain ⟨blocks, hblocks, hled, hall⟩ := h.main
  obtain ⟨hstorable, htake, hV⟩ := hfit head txs hr
  obtain ⟨prev, hprev, hhead⟩ : ∃ prev, blocks.getLast? = some prev ∧ prev.header = head := by
    have := hr.head_eq
    rwa [hblocks, List.getLast?_map, Option.map_eq_some_iff] at this
  have hgrow : Grows s.blockStore t.blockStore := hstore ▸ grows_storeBlock _ _ _
  have hlink : (link env head block).header.prevBlockHeader = some (prev.hash env.toSodium) := by
    rw [← hhead]
    rfl
  have hsome := (hall prev (List.mem_of_getLast? hprev)).isSome
  have hst : Stored env t.blockStore (link env head block) := by
    rw [hstore]
    exact stored_storeBlock hstorable.same
  have hsound : StoreSound env cfg V t.blockStore := by
    rw [hstore]
    exact h.store.storeBlock hstorable hlink hsome
  have hall' : ∀ b ∈ blocks, Stored env t.blockStore b := fun b hb ↦ hgrow _ _ (hall b hb)
  have hnd := (hsound.fresh _ hst).fresh blocks _ prev hled hall' hprev hlink
    ⟨htake.ids, htake.proven, htake.spendable⟩
  refine ⟨⟨blocks ++ [link env head block], by simp [hchain, hblocks], ?_, ?_⟩, hsound, ?_⟩
  · have hlen : s.mainChain.headerChain.length = blocks.length := by rw [hblocks, List.length_map]
    have happ := Ledger.append hled hprev hlink ⟨htake.ids, htake.proven, htake.spendable⟩ hnd (hV blocks hblocks)
    rwa [hcs, nextEffects, hlen]
  · intro b hb
    rcases List.mem_append.mp hb with hb | hb
    · exact hall' b hb
    · rw [List.mem_singleton.mp hb]
      exact hst
  · intro f hf
    rw [hforks] at hf
    obtain ⟨hsrc, hheld⟩ := h.forks f hf
    exact ⟨hgrow.isSome hsrc, fun k hk ↦ (hheld k hk).mono hgrow⟩

theorem post_append_sound {v : Option (List (List UInt64))} (h : Sound env cfg V s)
    (hfit : Fit env cfg V s block v) :
    Post (appendBlock env cfg block v) s
      (fun _ t ↦ Sound env cfg V t ∧ Grows s.blockStore t.blockStore) (fun _ ↦ Sound env cfg V) := by
  refine post_appendBlock (fun _ ↦ ⟨h, fun _ _ hx ↦ hx⟩) (fun _ _ ↦ h)
    (fun head txs hr ↦ (hfit head txs hr).2.1) fun head txs hr ↦ ?_
  refine (post_true _ _).mono (fun _ pool _ ↦ ⟨?_, grows_storeBlock _ _ _⟩) fun _ pool _ ↦ ?_
  · exact h.extend hr hfit rfl rfl rfl rfl
  · exact h.extend hr hfit rfl rfl rfl rfl

def Validated (env : Env) (cfg : Config) (V : List Block → MemChainstate → Block → Prop) : Prop :=
  ∀ s block head txs blocks, Ready env cfg s block none head txs →
    s.mainChain.headerChain = blocks.map Block.header → V blocks s.chainstate (link env head block)

theorem fit_of_stored (hV : Validated env cfg V) (h : Sound env cfg V s)
    (hst : Stored env s.blockStore block) (hlink : block.header.prevBlockHeader.isSome) :
    Fit env cfg V s block none := by
  intro head txs hr
  refine ⟨?_, takeable_of_validated hr.checked, fun blocks hblocks ↦ hV s block head txs blocks hr hblocks⟩
  rw [link_eq hlink hr.attaches]
  exact h.store.fresh block hst

theorem linked_tail {blocks : List Block} {cs : MemChainstate} (h : Ledger env cfg V blocks cs) :
    ∀ b ∈ blocks.tail, b.header.prevBlockHeader.isSome := by
  induction h with
  | genesis => simp
  | @append blocks block prev cs hold _ hlink _ _ _ ih =>
    intro b hb
    rw [List.tail_append_of_ne_nil hold.ne_nil, List.mem_append, List.mem_singleton] at hb
    rcases hb with hb | rfl
    · exact ih b hb
    · rw [hlink]
      rfl

theorem Sound.held_tail (h : Sound env cfg V s) (n : ℕ) :
    ∀ k ∈ s.mainChain.headerChain.drop (n + 1), Held env s.blockStore k := by
  obtain ⟨blocks, hblocks, hled, hall⟩ := h.main
  intro k hk
  rw [hblocks, ← List.map_drop] at hk
  obtain ⟨b, hb, rfl⟩ := List.mem_map.mp hk
  have htail : b ∈ blocks.tail := by
    rw [← List.drop_one]
    rw [Nat.add_comm, ← List.drop_drop] at hb
    exact List.mem_of_mem_drop hb
  exact ⟨b, hall b (List.mem_of_mem_tail htail), linked_tail hled b htail⟩

theorem Sound.cut (h : Sound env cfg V s) (n : ℕ) :
    ∃ cs, rewindHeaders env (s.mainChain.headerChain.drop (n + 1)).reverse s =
      .ok () { s with chainstate := cs } ∧
      Sound env cfg V (truncated (n + 1) { s with chainstate := cs }) := by
  obtain ⟨blocks, hblocks, hled, hall⟩ := h.main
  rw [← List.take_append_drop (n + 1) blocks] at hled
  have hne : blocks.take (n + 1) ≠ [] := by
    intro hnil
    rw [hnil, List.nil_append] at hled
    rw [List.take_eq_nil_iff] at hnil
    rcases hnil with hn | rfl
    · omega
    · exact hled.ne_nil (by simp)
  obtain ⟨cs, hfirst, hrew⟩ := hled.rewind_to hne
  refine ⟨cs, ?_, ⟨blocks.take (n + 1), ?_, hfirst, fun b hb ↦ hall b (List.mem_of_mem_take hb)⟩,
    h.store, h.forks⟩
  · rw [hblocks, ← List.map_drop, ← List.map_reverse]
    exact rewindHeaders_run (fun b hb ↦ hall b (List.mem_of_mem_drop (List.mem_reverse.mp hb))) hrew
  · simp [truncated, hblocks, List.map_take]

theorem post_cut {K : ChainManager → Prop} (h : Sound env cfg V s) (n : ℕ)
    (hK : ∀ cs, Sound env cfg V (truncated (n + 1) { s with chainstate := cs }) →
      K (truncated (n + 1) { s with chainstate := cs })) :
    Post (rewindHeaders env (s.mainChain.headerChain.drop (n + 1)).reverse) s
      (fun _ t ↦ K (truncated (n + 1) t)) (fun _ ↦ Sound env cfg V) := by
  obtain ⟨cs, hrun, hsound⟩ := h.cut n
  rw [Post, hrun]
  exact hK cs hsound

theorem append_held (hV : Validated env cfg V) {h : BlockHeader} (hs : Sound env cfg V s)
    (hheld : Held env s.blockStore h) : ∃ b, s.blockStore.lookup (h.hash env.toSodium) = some b ∧
      Post (appendBlock env cfg b none) s
        (fun _ t ↦ Sound env cfg V t ∧ Grows s.blockStore t.blockStore)
        (fun _ ↦ Sound env cfg V) := by
  obtain ⟨b, hb, hlink⟩ := hheld
  have hst : Stored env s.blockStore b := by rwa [Stored, ← hs.store.hashes _ _ hb]
  exact ⟨b, hb, post_append_sound hs (fit_of_stored hV hs hst hlink)⟩

theorem post_reorg_sound (hV : Validated env cfg V) {k : ℕ} {fork : Fork} (h : Sound env cfg V s)
    (hsrc : (s.blockStore.lookup (fork.chainSrcHeader.hash env.toSodium)).isSome)
    (hheld : ∀ x ∈ fork.headerChain, Held env s.blockStore x) :
    Post (reorg env cfg k fork) s (fun _ ↦ Sound env cfg V) (fun _ ↦ Sound env cfg V) := by
  cases hat : s.mainChain.headerChain[fork.chainSrc.toNat]? with
  | none =>
    rw [Post, reorg]
    simp only [run_bind_get, headerAt, hat, run_bind_ofExcept_error]
  | some srcHeader =>
    have hsrc' : (s.blockStore.lookup (srcHeader.hash env.toSodium)).isSome := by
      obtain ⟨blocks, hblocks, -, hall⟩ := h.main
      rw [hblocks] at hat
      obtain ⟨b, hb, rfl⟩ := List.mem_map.mp (List.mem_of_getElem? hat)
      exact (hall b hb).isSome
    have htail := h.held_tail fork.chainSrc.toNat
    let K (t : ChainManager) : Prop := Sound env cfg V t ∧ Grows s.blockStore t.blockStore
    have hloop : ∀ x rest t, (K t ∧ ∀ y ∈ x :: rest, Held env s.blockStore y) →
        ∃ b, t.blockStore.lookup (x.hash env.toSodium) = some b ∧
            Post (appendBlock env cfg b none) t
              (fun _ u ↦ K u ∧ ∀ y ∈ rest, Held env s.blockStore y) (fun _ ↦ Sound env cfg V) := by
      rintro x rest t ⟨⟨hs, hg⟩, hrest⟩
      obtain ⟨b, hb, hpost⟩ := append_held hV hs ((hrest x (by simp)).mono hg)
      refine ⟨b, hb, hpost.mono (fun _ u hu ↦ ⟨⟨hu.1, fun k y hy ↦ hu.2 k y (hg k y hy)⟩, ?_⟩)
        fun _ _ he ↦ he⟩
      exact fun y hy ↦ hrest y (by simp [hy])
    refine post_reorg (C := K) (W := K) (L := fun _ ↦ K) (A := fun _ ↦ K)
      (B := fun _ ↦ K) hat ?_ ?_ ?_ ?_ ?_ ?_ fun _ _ w hq _ ↦ hq w
    · exact post_cut h _ fun cs hs ↦ ⟨hs, fun _ _ hx ↦ hx⟩
    · intro t ht
      refine (post_appendFork (I := fun rest t ↦ K t ∧ ∀ y ∈ rest, Held env s.blockStore y)
        (J := fun _ ↦ K) (fun x rest t hI ↦ ?_) 0 ⟨ht, hheld⟩).mono ?_ fun _ _ he ↦ he
      · obtain ⟨b, hb, hpost⟩ := hloop x rest t hI
        refine ⟨b, hb, hpost.mono (fun r u hu ↦ ?_) fun _ _ he ↦ he⟩
        cases r
        · exact hu.1
        · exact hu
      · intro r u hu
        cases r with
        | none => exact hu.1
        | some i =>
          obtain ⟨-, -, -, -, -, hK⟩ := hu
          exact hK
    · exact fun _ u hu ↦ post_cut hu.1 _ fun cs hs ↦ ⟨hs, hu.2⟩
    · intro _ t ht
      refine (post_reappendOld (I := fun rest t ↦ K t ∧ ∀ y ∈ rest, Held env s.blockStore y)
        (fun x rest t hI ↦ ?_) ⟨ht, htail⟩).mono (fun _ _ hu ↦ hu.1) fun _ _ he ↦ he
      obtain ⟨b, hb, hpost⟩ := hloop x rest t hI
      exact ⟨b, hb, hpost.mono (fun _ _ hu _ ↦ hu) fun _ _ he ↦ he⟩
    · rintro idx u trimmed w ⟨hs, hg⟩ htrim
      obtain ⟨-, rfl⟩ := trimFork_ok htrim
      refine ⟨hs.main, hs.store, fun f hf ↦ ?_⟩
      rcases List.mem_or_eq_of_mem_set hf with hf | rfl
      · exact hs.forks f hf
      · exact ⟨hg.isSome hsrc, fun y hy ↦ (hheld y (List.mem_of_mem_take hy)).mono hg⟩
    · rintro u w ⟨hs, hg⟩
      refine ⟨hs.main, hs.store, fun f hf ↦ ?_⟩
      rcases List.mem_append.mp hf with hf | hf
      · exact hs.forks f (List.mem_of_mem_eraseIdx hf)
      · rw [List.mem_singleton.mp hf]
        exact ⟨hg.isSome hsrc', fun y hy ↦ (htail y hy).mono hg⟩

/-- What is asked of a block that `add_block` takes in: it may be stored where it
is linked, and when it is handed in as valid it can be taken. -/
def Delivered (env : Env) (cfg : Config) (V : List Block → MemChainstate → Block → Prop)
    (s : ChainManager) : Event → Prop
  | .block block mined => ∀ head, Placed env cfg s block mined head →
      Storable env cfg V s.blockStore (link env head block) ∧
        (mined.isSome → Takeable env.toSodium s.chainstate block ∧
          ∀ blocks, s.mainChain.headerChain = blocks.map Block.header →
            V blocks s.chainstate (link env head block))
  | _ => True

theorem Sound.fork (h : Sound env cfg V s) {head : BlockHeader}
    (hb : Storable env cfg V s.blockStore (link env head block))
    (hhead : (s.blockStore.lookup (head.hash env.toSodium)).isSome) :
    Sound env cfg V (withStored env s (link env head block)) ∧
      Held env (withStored env s (link env head block)).blockStore (link env head block).header := by
  have hgrow := grows_storeBlock s.blockStore (block.hash env.toSodium)
    (link env head block)
  obtain ⟨blocks, hblocks, hled, hall⟩ := h.main
  refine ⟨⟨⟨blocks, hblocks, hled, fun b hb' ↦ hgrow _ _ (hall b hb')⟩,
    h.store.storeBlock hb rfl hhead, fun f hf ↦ ?_⟩, _, stored_storeBlock hb.same, rfl⟩
  obtain ⟨hsrc, hheld⟩ := h.forks f hf
  exact ⟨hgrow.isSome hsrc, fun k hk ↦ (hheld k hk).mono hgrow⟩

theorem head_mem (fork : Fork) : fork.head ∈ fork.chainSrcHeader :: fork.headerChain := by
  rw [Fork.head]
  cases hlast : fork.headerChain.getLast? with
  | none => simp [List.getLastD_eq_getLast?, hlast]
  | some x => simp [List.getLastD_eq_getLast?, hlast, List.mem_of_getLast? hlast]

theorem Sound.forked (h : Sound env cfg V s) {k : ℕ} {fork : Fork}
    (hfind : findFork env block.header 0 s.forks = some (k, fork))
    (hb : Storable env cfg V s.blockStore (link env fork.head block)) :
    Sound env cfg V (forked env s k fork block) ∧
      ((forked env s k fork block).blockStore.lookup
        (fork.chainSrcHeader.hash env.toSodium)).isSome ∧
      ∀ x ∈ (grown fork (link env fork.head block).header).headerChain,
        Held env (forked env s k fork block).blockStore x := by
  have hmem := List.mem_of_getElem? (findFork_some hfind).2.1
  obtain ⟨hsrc, hheld⟩ := h.forks fork hmem
  have hhead : (s.blockStore.lookup (fork.head.hash env.toSodium)).isSome := by
    rcases List.mem_cons.mp (head_mem fork) with he | hin
    · rwa [he]
    · obtain ⟨b, hb, -⟩ := hheld _ hin
      rw [hb]
      rfl
  obtain ⟨hs, hnew⟩ := h.fork hb hhead
  obtain ⟨hsrc', hheld'⟩ := hs.forks fork hmem
  have hgrown : ∀ x ∈ (grown fork (link env fork.head block).header).headerChain,
      Held env (withStored env s (link env fork.head block)).blockStore x := by
    intro x hx
    rcases List.mem_append.mp hx with hx | hx
    · exact hheld' x hx
    · rwa [List.mem_singleton.mp hx]
  refine ⟨⟨hs.main, hs.store, fun f hf ↦ ?_⟩, hsrc', hgrown⟩
  rcases List.mem_or_eq_of_mem_set hf with hf | rfl
  · exact hs.forks f hf
  · exact ⟨hsrc', hgrown⟩

theorem post_handle_sound (hV : Validated env cfg V) (h : Sound env cfg V s) {event : Event}
    (hd : Delivered env cfg V s event) :
    Post (handle env cfg event) s (fun _ ↦ Sound env cfg V) (fun _ ↦ Sound env cfg V) := by
  cases event with
  | tx tx =>
    exact (addTx_sameChains s tx).mono
      (fun _ _ hs ↦ h.congr (by rw [hs.mainChain]) hs.chainstate hs.blockStore hs.forks)
      fun _ _ hs ↦ h.congr (by rw [hs.mainChain]) hs.chainstate hs.blockStore hs.forks
  | computation comp =>
    exact (addComputation_sameChains s comp).mono
      (fun _ _ hs ↦ h.congr (by rw [hs.mainChain]) hs.chainstate hs.blockStore hs.forks)
      fun _ _ hs ↦ h.congr (by rw [hs.mainChain]) hs.chainstate hs.blockStore hs.forks
  | block block mined =>
    refine post_addBlock h (fun _ _ _ hq ↦ hq) (fun hon ↦ ?_) (fun k fork hoff hfind hvalid ↦ ?_)
      fun i src total hoff hfind hatt hvalid ↦ ?_
    · refine (post_append_sound h fun head txs hr ↦ ?_).mono
        (fun _ t ht w ↦ ht.1.congr rfl rfl rfl rfl) fun _ _ ht ↦ ht
      obtain ⟨hstorable, hmined⟩ := hd head (.main hon hr)
      refine ⟨hstorable, ?_⟩
      cases mined with
      | some amounts => exact hmined rfl
      | none => exact ⟨takeable_of_validated hr.checked, fun blocks hb ↦ hV _ _ _ _ _ hr hb⟩
    · obtain ⟨hset, hsrc, hgrown⟩ := h.forked hfind (hd _ (.fork hoff hfind hvalid)).1
      exact ⟨fun _ ↦ hset, fun _ ↦ post_reorg_sound hV hset hsrc hgrown⟩
    · obtain ⟨hstorable, -⟩ := hd _ (.newFork hoff hfind hatt hvalid)
      have hhead : (s.blockStore.lookup (src.hash env.toSodium)).isSome := by
        obtain ⟨blocks, hblocks, -, hall⟩ := h.main
        have hmem := List.mem_of_getElem? (findAttachment_some hatt).2.1
        rw [hblocks] at hmem
        obtain ⟨b, hb, rfl⟩ := List.mem_map.mp hmem
        exact (hall b hb).isSome
      obtain ⟨hs, hnew⟩ := h.fork hstorable hhead
      refine ⟨hs.main, hs.store, fun f hf ↦ ?_⟩
      rcases List.mem_append.mp hf with hf | hf
      · exact hs.forks f hf
      · rw [List.mem_singleton.mp hf]
        refine ⟨(grows_storeBlock _ _ _).isSome hhead, fun y hy ↦ ?_⟩
        simp only [grown, newFork, List.nil_append, List.mem_singleton] at hy
        rw [hy]
        exact hnew

theorem genesis_unlinked {na : Sodium} {timestamp : Int64} {difficulty : UInt32}
    {pubkey : PublicKey} {amount : UInt64} {genesis : Block}
    (h : Block.genesis na timestamp difficulty pubkey amount = .ok genesis) :
    genesis.header.prevBlockHeader = none := by
  simp only [Block.genesis, bind_eq_ok] at h
  obtain ⟨txids, -, he⟩ := h
  obtain rfl := Except.ok.inj he
  rfl

theorem started_lookup {wallet : Store.Coins.Wallet} {genesis : Block} (h : Bytes) :
    (started env wallet genesis).blockStore.lookup h =
      if h = genesis.hash env.toSodium then some genesis else none := by
  simp [started, storeBlock_lookup]

theorem stored_started {wallet : Store.Coins.Wallet} {genesis b : Block}
    (h : Stored env (started env wallet genesis).blockStore b) : b = genesis := by
  rw [Stored, started_lookup] at h
  split_ifs at h
  exact (Option.some.inj h).symm

theorem sound_start {wallet : Store.Coins.Wallet} (hs : create env cfg wallet = .ok s) :
    Sound env cfg V s := by
  obtain ⟨genesis, hgen, rfl⟩ := create_ok hs
  have hnone := genesis_unlinked hgen
  refine ⟨⟨[genesis], rfl, .genesis hgen, fun b hb ↦ ?_⟩, ⟨fun h b hb ↦ ?_, fun b p hst hp ↦ ?_,
    fun b hst ↦ ⟨fun old ho ↦ ?_, fun blocks cs prev _ _ _ hbl _ ↦ ?_⟩⟩, fun f hf ↦ ?_⟩
  · rw [List.mem_singleton.mp hb, Stored, started_lookup, if_pos rfl]
  · rw [started_lookup] at hb
    split_ifs at hb with hh
    rw [hh, Option.some.inj hb]
  · rw [stored_started hst, hnone] at hp
    contradiction
  · rw [Stored, ho] at hst
    exact Option.some.inj hst
  · rw [stored_started hst, hnone] at hbl
    contradiction
  · simp [started] at hf

end Invariant

section Sample

theorem mem_createdIn {na : Sodium} {blocks : List Block} {key : Bytes} :
    key ∈ createdIn na blocks ↔ ∃ b ∈ blocks, key ∈ createdIn na [b] := by
  simp only [createdIn, chainTxs, List.mem_flatMap, List.mem_singleton, exists_eq_left]
  constructor
  · rintro ⟨tx, ⟨b, hb, htx⟩, hkey⟩
    exact ⟨b, hb, tx, htx, hkey⟩
  · rintro ⟨b, hb, tx, htx, hkey⟩
    exact ⟨tx, ⟨b, hb, htx⟩, hkey⟩

/-- A received block under a new hash whose output keys are no keys of a stored block. -/
def Novel (env : Env) (s : ChainManager) : Event → Prop
  | .block block none => s.blockStore.lookup (block.hash env.toSodium) = none ∧
      (createdIn env.toSodium [block]).Nodup ∧ ∀ hash ∈ s.blockStore.keys,
        ∀ b ∈ s.blockStore.lookup hash, ∀ key ∈ createdIn env.toSodium [block],
          key ∉ createdIn env.toSodium [b]
  | _ => False

instance (s : ChainManager) (event : Event) : Decidable (Novel env s event) :=
  match event with
  | .block _ none => inferInstanceAs (Decidable (_ ∧ _))
  | .block _ (some _) => .isFalse not_false
  | .tx _ => .isFalse not_false
  | .computation _ => .isFalse not_false

theorem Novel.delivered {event : Event} (h : Novel env s event) : Delivered env cfg V s event := by
  cases event with
  | tx tx => exact h.elim
  | computation comp => exact h.elim
  | block block mined =>
    cases mined with
    | some amounts => exact h.elim
    | none =>
      obtain ⟨hnew, hnd, hapart⟩ := h
      refine fun head _ ↦ ⟨⟨fun old hold ↦ ?_, fun blocks cs prev hled hall _ _ _ ↦ ?_⟩, by simp⟩
      · exact absurd (hnew.symm.trans hold) (by simp)
      · have hsplit : createdIn env.toSodium (blocks ++ [link env head block]) =
            createdIn env.toSodium blocks ++ createdIn env.toSodium [block] := by
          simp [createdIn, chainTxs, link]
        rw [hsplit, List.nodup_append]
        refine ⟨hled.keyed.1, hnd, fun key hold key' hkey heq ↦ ?_⟩
        obtain ⟨b, hb, hmem⟩ := mem_createdIn.mp hold
        have hstored : s.blockStore.lookup (b.hash env.toSodium) = some b := hall b hb
        have hmember : b.hash env.toSodium ∈ s.blockStore :=
          Finmap.lookup_isSome.mp (by rw [hstored]; rfl)
        exact hapart _ (Finmap.mem_keys.mpr hmember) b hstored key' hkey (heq ▸ hmem)

/-- A block on the genesis block and a longer branch, which becomes the main chain. -/
def overtaken : List Event :=
  let a := arriving sampleGenesis 1
  let b₁ := arriving sampleGenesis 2
  let b₂ := arriving b₁ 3
  [a, b₁, b₂].map (.block · none)

def repeatedGenesis : Block := sampleBlock sampleGenesis 1 [coinbaseTransaction sampleKey 50 0]

/-- The block that repeats the genesis coinbase, and a longer branch without it. -/
def rewoundRepetition : List Event :=
  let b₁ := sampleBlock sampleGenesis 1 [coinbaseTransaction sampleKey 50 1]
  let b₂ := sampleBlock b₁ 2 [coinbaseTransaction sampleKey 50 2]
  [repeatedGenesis, b₁, b₂].map (.block · none)

end Sample

end FheBlockchain.Chain.Replay
