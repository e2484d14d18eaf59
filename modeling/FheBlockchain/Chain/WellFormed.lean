import FheBlockchain.Chain.Replay

namespace FheBlockchain.Chain.WellFormed

open Core.Transactions Core.Blocks Store.Pools Validation Manager AppendFacts Accepted
open ValidationFacts (getHeader_ok)
open Exceptions ReorgFacts Placement Node Replay
open Store.Chainstate hiding M addBlock
open Store.Coins hiding M
open Library.Execution

variable {env : Env} {cfg : Config} {s t : ChainManager} {block : Block} {first : BlockHeader}

def Follows (env : Env) (a b : BlockHeader) : Prop :=
  b.prevHash = a.hash env.toSodium ∧ a.timestamp < b.timestamp

/-- The main chain leads from `first` on to later and later headers, and the
blocks of all chains are stored. -/
structure ChainsFormed (env : Env) (first : BlockHeader) (s : ChainManager) : Prop where
  starts : s.mainChain.headerChain.head? = some first
  follows : s.mainChain.headerChain.IsChain (Follows env)
  main : ∀ h ∈ s.mainChain.headerChain, Has env s.blockStore h
  forks : ∀ f ∈ s.forks, ∀ h ∈ f.headerChain, Has env s.blockStore h

theorem has_storeBlock {store : MemBlockStore} (block : Block) :
    Has env (store.storeBlock (block.hash env.toSodium) block).1 block.header := by
  rw [Has, show block.header.hash env.toSodium = block.hash env.toSodium from rfl,
    storeBlock_lookup, if_pos rfl, Option.isSome_or]
  simp

theorem ChainsFormed.congr (h : ChainsFormed env first s)
    (hchain : t.mainChain.headerChain = s.mainChain.headerChain)
    (hstore : t.blockStore = s.blockStore) (hforks : t.forks = s.forks) :
    ChainsFormed env first t := by
  refine ⟨?_, ?_, ?_, ?_⟩
  · rw [hchain]
    exact h.starts
  · rw [hchain]
    exact h.follows
  · rw [hchain, hstore]
    exact h.main
  · rw [hforks, hstore]
    exact h.forks

theorem ChainsFormed.truncated (h : ChainsFormed env first s) (n : ℕ) :
    ChainsFormed env first (truncated (n + 1) s) := by
  refine ⟨?_, h.follows.take _, fun x hx ↦ h.main x (List.mem_of_mem_take hx), h.forks⟩
  have hstart := h.starts
  cases hc : s.mainChain.headerChain with
  | nil => simp [hc] at hstart
  | cons x xs => simpa [ReorgFacts.truncated, hc] using hstart

theorem ChainsFormed.extend {v : Option (List (List UInt64))} {head : BlockHeader}
    {txs : List PooledTx} (h : ChainsFormed env first s) (hr : Ready env cfg s block v head txs)
    (hchain : t.mainChain.headerChain = s.mainChain.headerChain ++ [(link env head block).header])
    (hstore : t.blockStore =
      (s.blockStore.storeBlock (block.hash env.toSodium) (link env head block)).1)
    (hforks : t.forks = s.forks) : ChainsFormed env first t := by
  have hgrow : Grows s.blockStore t.blockStore := hstore ▸ grows_storeBlock _ _ _
  have hnew : Has env t.blockStore (link env head block).header := by
    rw [hstore]
    exact has_storeBlock (link env head block)
  refine ⟨?_, ?_, fun x hx ↦ ?_, fun f hf x hx ↦ ?_⟩
  · rw [hchain, List.head?_append, h.starts]
    rfl
  · rw [hchain, List.isChain_append]
    refine ⟨h.follows, by simp, fun a ha b hb ↦ ?_⟩
    rw [hr.head_eq, Option.mem_some_iff] at ha
    simp only [List.head?_cons, Option.mem_some_iff] at hb
    rw [← ha, ← hb]
    exact ⟨rfl, hr.later⟩
  · rw [hchain, List.mem_append, List.mem_singleton] at hx
    rcases hx with hx | rfl
    · exact hgrow.isSome (h.main x hx)
    · exact hnew
  · rw [hforks] at hf
    exact hgrow.isSome (h.forks f hf x hx)

theorem post_append_formed {v : Option (List (List UInt64))} (h : ChainsFormed env first s)
    (hids : v.isSome → Identified env.toSodium block) :
    Post (appendBlock env cfg block v) s
      (fun _ t ↦ ChainsFormed env first t ∧ Grows s.blockStore t.blockStore)
      (fun e t ↦ e ≠ blockNotFound ∧ ChainsFormed env first t) := by
  refine post_append_identified hids ⟨h, fun _ _ hx ↦ hx⟩ (fun e he ↦ ⟨?_, h⟩)
    fun head txs cs pool hr ↦ ⟨⟨h.extend hr rfl rfl rfl, grows_storeBlock _ _ _⟩, fun e he ↦ ?_⟩
  · rintro rfl
    rcases raised_of_refused he with he | ⟨he, -⟩
    · exact blockNotFound_not_raised he
    · simp [blockNotFound, cannotAttach] at he
  · refine ⟨?_, h.extend hr rfl rfl rfl⟩
    rintro rfl
    exact blockNotFound_not_raised he

theorem post_reorg_formed {k : ℕ} {fork : Fork} (h : ChainsFormed env first s)
    (hhas : ∀ x ∈ fork.headerChain, Has env s.blockStore x) :
    Post (reorg env cfg k fork) s (fun _ ↦ ChainsFormed env first)
      (fun e t ↦ e ≠ blockNotFound ∧ ChainsFormed env first t) := by
  cases hat : s.mainChain.headerChain[fork.chainSrc.toNat]? with
  | none =>
    rw [Post, reorg]
    simp only [run_bind_get, headerAt, hat, run_bind_ofExcept_error]
  | some srcHeader =>
    have htail : ∀ x ∈ s.mainChain.headerChain.drop (fork.chainSrc.toNat + 1),
        Has env s.blockStore x := fun x hx ↦ h.main x (List.mem_of_mem_drop hx)
    let K (t : ChainManager) : Prop := ChainsFormed env first t ∧ Grows s.blockStore t.blockStore
    have hcut (t : ChainManager) (ht : K t) : Post (rewindHeaders env
        (t.mainChain.headerChain.drop (fork.chainSrc.toNat + 1)).reverse) t
        (fun _ u ↦ K (truncated (fork.chainSrc.toNat + 1) u))
        (fun e u ↦ e ≠ blockNotFound ∧ ChainsFormed env first u) := by
      refine (rewindHeaders_raised _ t fun x hx ↦ ht.1.main x ?_).mono (fun _ u hu ↦ ?_) ?_
      · exact List.mem_of_mem_drop (List.mem_reverse.mp hx)
      · have hu' : ChainsFormed env first u := by
          rw [hu]
          exact ht.1.congr rfl rfl rfl
        refine ⟨hu'.truncated _, ?_⟩
        rw [hu]
        exact ht.2
      · rintro e u ⟨he, hu⟩
        refine ⟨?_, ?_⟩
        · rintro rfl
          exact blockNotFound_not_raised he
        · rw [hu]
          exact ht.1.congr rfl rfl rfl
    have hloop : ∀ x rest t, (K t ∧ ∀ y ∈ x :: rest, Has env s.blockStore y) →
        ∃ b, t.blockStore.lookup (x.hash env.toSodium) = some b ∧
          Post (appendBlock env cfg b none) t
            (fun _ u ↦ K u ∧ ∀ y ∈ rest, Has env s.blockStore y)
            (fun e t ↦ e ≠ blockNotFound ∧ ChainsFormed env first t) := by
      rintro x rest t ⟨⟨ht, hg⟩, hrest⟩
      obtain ⟨b, hb⟩ := Option.isSome_iff_exists.mp (hg.isSome (hrest x (by simp)))
      refine ⟨b, hb, (post_append_formed ht (by simp)).mono (fun _ u hu ↦ ⟨⟨hu.1, ?_⟩, ?_⟩)
        fun _ _ he ↦ he⟩
      · exact fun k y hy ↦ hu.2 k y (hg k y hy)
      · exact fun y hy ↦ hrest y (by simp [hy])
    refine post_reorg (C := K) (W := K) (L := fun _ ↦ K) (A := fun _ ↦ K)
      (B := fun _ ↦ K) hat (hcut s ⟨h, fun _ _ hx ↦ hx⟩) (fun t ht ↦ ?_)
      (fun _ u hu ↦ hcut u hu) (fun _ t ht ↦ ?_) ?_ ?_ fun e u w hq he ↦ ?_
    · refine (post_appendFork (I := fun rest t ↦ K t ∧ ∀ y ∈ rest, Has env s.blockStore y)
        (J := fun _ ↦ K) (fun x rest t hI ↦ ?_) 0 ⟨ht, hhas⟩).mono ?_ fun _ _ he ↦ he
      · obtain ⟨b, hb, hpost⟩ := hloop x rest t hI
        refine ⟨b, hb, hpost.mono (fun r u hu ↦ ?_) fun _ _ he ↦ he⟩
        cases r
        · exact hu.1
        · exact hu
      · intro r u hu
        cases r with
        | none => exact hu.1
        | some i =>
          obtain ⟨-, -, -, -, -, hK⟩ := hu
          exact hK
    · refine (post_reappendOld (I := fun rest t ↦ K t ∧ ∀ y ∈ rest, Has env s.blockStore y)
        (fun x rest t hI ↦ ?_) ⟨ht, htail⟩).mono (fun _ _ hu ↦ hu.1) fun _ _ he ↦ he
      obtain ⟨b, hb, hpost⟩ := hloop x rest t hI
      exact ⟨b, hb, hpost.mono (fun _ _ hu _ ↦ hu) fun _ _ he ↦ he⟩
    · rintro idx u trimmed w ⟨hu, hg⟩ htrim
      obtain ⟨-, rfl⟩ := trimFork_ok htrim
      refine ⟨hu.starts, hu.follows, hu.main, fun f hf x hx ↦ ?_⟩
      rcases List.mem_or_eq_of_mem_set hf with hf | rfl
      · exact hu.forks f hf x hx
      · exact hg.isSome (hhas x (List.mem_of_mem_take hx))
    · rintro u w ⟨hu, hg⟩
      refine ⟨hu.starts, hu.follows, hu.main, fun f hf x hx ↦ ?_⟩
      rcases List.mem_append.mp hf with hf | hf
      · exact hu.forks f (List.mem_of_mem_eraseIdx hf) x hx
      · rw [List.mem_singleton.mp hf] at hx
        exact hg.isSome (htail x hx)
    · have hu := hq u.wallet
      have hscan := rescan_raised env u.mainChain.headerChain u.blockStore u.wallet hu.main
      rw [Post, he] at hscan
      refine ⟨?_, hq w⟩
      rintro rfl
      exact blockNotFound_not_raised hscan

/-- A block that is handed in as valid has TXIDs and proofs, as every block that was
built from its transactions and has been mined does. -/
def Vouched (env : Env) : ChainManager → Event → Prop
  | _, .block block mined => mined.isSome → Identified env.toSodium block
  | _, _ => True

theorem ChainsFormed.fork (h : ChainsFormed env first s) (head : BlockHeader) (block : Block) :
    ChainsFormed env first (withStored env s (link env head block)) := by
  have hgrow := grows_storeBlock s.blockStore (block.hash env.toSodium)
    (link env head block)
  exact ⟨h.starts, h.follows, fun x hx ↦ hgrow.isSome (h.main x hx),
    fun f hf x hx ↦ hgrow.isSome (h.forks f hf x hx)⟩

theorem post_handle_formed (cfg : Config) (h : ChainsFormed env first s) (event : Event)
    (hv : Vouched env s event) :
    Post (handle env cfg event) s (fun _ ↦ ChainsFormed env first)
      (fun e t ↦ (∀ block mined, event = .block block mined → e ≠ blockNotFound) ∧
        ChainsFormed env first t) := by
  cases event with
  | tx tx =>
    exact (addTx_sameChains s tx).mono
      (fun _ _ hs ↦ h.congr (by rw [hs.mainChain]) hs.blockStore hs.forks)
      fun _ _ hs ↦ ⟨by simp, h.congr (by rw [hs.mainChain]) hs.blockStore hs.forks⟩
  | computation comp =>
    exact (addComputation_sameChains s comp).mono
      (fun _ _ hs ↦ h.congr (by rw [hs.mainChain]) hs.blockStore hs.forks)
      fun _ _ hs ↦ ⟨by simp, h.congr (by rw [hs.mainChain]) hs.blockStore hs.forks⟩
  | block block mined =>
    suffices hblock : Post (addBlock env cfg block mined) s (fun _ ↦ ChainsFormed env first)
        (fun e t ↦ e ≠ blockNotFound ∧ ChainsFormed env first t) from
      hblock.mono (fun _ _ ht ↦ ht) fun _ _ he ↦ ⟨fun _ _ _ ↦ he.1, he.2⟩
    refine post_addBlock h (fun e t he ht ↦ ⟨?_, ht⟩) (fun _ ↦ ?_)
      (fun k fork _ hfind _ ↦ ?_) fun i src total _ _ _ _ ↦ ?_
    · rintro rfl
      exact blockNotFound_not_raised he
    · exact (post_append_formed h hv).mono (fun _ _ ht w ↦ ht.1.congr rfl rfl rfl)
        fun _ _ ht ↦ ht
    · have hmem := List.mem_of_getElem? (findFork_some hfind).2.1
      have hs := h.fork fork.head block
      have hgrown : ∀ x ∈ (grown fork (link env fork.head block).header).headerChain,
          Has env (withStored env s (link env fork.head block)).blockStore x := by
        intro x hx
        rcases List.mem_append.mp hx with hx | hx
        · exact hs.forks fork hmem x hx
        · rw [List.mem_singleton.mp hx]
          exact has_storeBlock (link env fork.head block)
      have hset : ChainsFormed env first { withStored env s (link env fork.head block) with
          forks := s.forks.set k (grown fork (link env fork.head block).header) } := by
        refine ⟨hs.starts, hs.follows, hs.main, fun f hf ↦ ?_⟩
        rcases List.mem_or_eq_of_mem_set hf with hf | rfl
        · exact hs.forks f hf
        · exact hgrown
      exact ⟨fun _ ↦ hset, fun _ ↦ post_reorg_formed hset hgrown⟩
    · have hs := h.fork src block
      refine ⟨hs.starts, hs.follows, hs.main, fun f hf ↦ ?_⟩
      rcases List.mem_append.mp hf with hf | hf
      · exact hs.forks f hf
      · intro x hx
        rw [List.mem_singleton.mp hf] at hx
        simp only [grown, newFork, List.nil_append, List.mem_singleton] at hx
        rw [hx]
        exact has_storeBlock (link env src block)

theorem formed_start {wallet : Wallet} {genesis : Block}
    (hgen : Block.genesis env.toSodium cfg.timestamp cfg.difficulty cfg.publicKey cfg.reward =
      .ok genesis) (hs : create env cfg wallet = .ok s) : ChainsFormed env genesis.header s := by
  obtain ⟨genesis', hgen', rfl⟩ := create_ok hs
  obtain rfl : genesis = genesis' := Except.ok.inj (hgen.symm.trans hgen')
  refine ⟨rfl, .singleton _, fun x hx ↦ ?_, fun f hf ↦ by simp [started] at hf⟩
  rw [List.mem_singleton.mp hx]
  exact has_storeBlock genesis

theorem ChainsFormed.ne_nil (h : ChainsFormed env first s) : s.mainChain.headerChain ≠ [] := by
  intro hnil
  have hstarts := h.starts
  rw [hnil] at hstarts
  contradiction

theorem ChainsFormed.requested (h : ChainsFormed env first s) (heightReq : UInt32) :
    ∃ r, requestedBlock env s heightReq = .ok r := by
  by_cases hout : currentHeight s.mainChain.headerChain < heightReq
  · exact ⟨none, requestedBlock_outOfRange hout⟩
  · obtain ⟨header, hmem, hget⟩ := getHeader_ok h.ne_nil hout
    obtain ⟨block, hb⟩ := Option.isSome_iff_exists.mp (h.main header hmem)
    exact ⟨some block, requestedBlock_ok hout hget hb⟩

/-- Whatever blocks arrive, the main chain starts with the genesis block, each
header follows the one before, and no block that is asked for is missing. -/
theorem chains_formed {wallet : Wallet} (hs : create env cfg wallet = .ok s)
    (hrun : Run env cfg (Vouched env) s t) :
    ∃ genesis,
      Block.genesis env.toSodium cfg.timestamp cfg.difficulty cfg.publicKey cfg.reward =
        .ok genesis ∧
      ChainsFormed env genesis.header t ∧
      (∀ block mined u, (mined.isSome → Identified env.toSodium block) →
        addBlock env cfg block mined t ≠ .error (.throw blockNotFound) u) ∧
      (∀ w u, rescan env.toSodium t.mainChain.headerChain t.blockStore w ≠
        .error (.throw blockNotFound) u) ∧
      ∀ heightReq, ∃ r, requestedBlock env t heightReq = .ok r := by
  obtain ⟨genesis, hgen, -⟩ := create_ok hs
  have hformed : ChainsFormed env genesis.header t :=
    hrun.invariant (formed_start hgen hs) fun _ _ h hv ↦
      (post_handle_formed cfg h _ hv).mono (fun _ _ ht ↦ ht) fun _ _ ht ↦ ht.2
  refine ⟨genesis, hgen, hformed, fun block mined u hids hadd ↦ ?_, fun w u hscan ↦ ?_,
    hformed.requested⟩
  · have hpost := post_handle_formed cfg hformed (.block block mined) hids
    rw [Post, handle, hadd] at hpost
    exact hpost.1 _ _ rfl rfl
  · have hpost := rescan_raised env t.mainChain.headerChain t.blockStore w hformed.main
    rw [Post, hscan] at hpost
    exact blockNotFound_not_raised hpost

/-- A block that is handed in, and a longer branch, which becomes the main chain. -/
def handedOver : List Event := .block firstBlock (some [[]]) :: overtaken.tail

theorem vouched_handedOver : ∀ event ∈ handedOver, ∀ u, Vouched sampleEnv u event := by
  have hids : Identified sampleEnv.toSodium firstBlock := by decide +kernel
  intro event hevent u
  rcases List.mem_cons.mp hevent with rfl | htail
  · exact fun _ ↦ hids
  · obtain ⟨block, -, rfl⟩ := List.mem_map.mp (List.mem_of_mem_tail htail)
    exact fun h ↦ absurd h Bool.false_ne_true

theorem chains_formed_handedOver : ∃ t,
    handleAll (fun _ _ ↦ True) sampleEnv sampleConfig handedOver sampleStart = some t ∧
      t.mainChain.headerChain.length = 3 ∧ t.forks.length = 1 ∧
      ∃ genesis, Block.genesis sampleEnv.toSodium sampleConfig.timestamp sampleConfig.difficulty
          sampleConfig.publicKey sampleConfig.reward = .ok genesis ∧
        ChainsFormed sampleEnv genesis.header t := by
  have hrun : (handleAll (fun _ _ ↦ True) sampleEnv sampleConfig handedOver sampleStart).map
      (fun t ↦ (t.mainChain.headerChain.length, t.forks.length)) = some (3, 1) := by
    decide +kernel
  obtain ⟨t, ht, hlen⟩ := Option.map_eq_some_iff.mp hrun
  obtain ⟨genesis, hgen, hformed, -⟩ := chains_formed create_sample
    (handleAll_run_of .start (fun event hevent u _ ↦ vouched_handedOver event hevent u) ht)
  exact ⟨t, ht, (Prod.mk.inj hlen).1, (Prod.mk.inj hlen).2, genesis, hgen, hformed⟩

/-- A block without TXIDs, since its second transaction is not signed. -/
def unsignedBlock : Block :=
  sampleBlock sampleGenesis 1 [coinbaseTransaction sampleKey 50 1,
    ⟨[.unsigned (zeros 32) 0], [⟨1, sampleKey⟩]⟩]

theorem unsigned_block_not_stored :
    ¬ ∀ (env : Env) (cfg : Config) (wallet : Wallet) (s t : ChainManager) (genesis : Block)
      (calls : List (Block × Option (List (List UInt64)))),
      Block.genesis env.toSodium cfg.timestamp cfg.difficulty cfg.publicKey cfg.reward =
        .ok genesis →
      create env cfg wallet = .ok s →
      ((genesis :: calls.map Prod.fst).map (Block.hash env.toSodium)).Nodup →
      handleAll (fun _ _ ↦ True) env cfg (calls.map fun c ↦ .block c.1 c.2) s = some t →
      ChainsFormed env genesis.header t := by
  intro h
  have hrun : (handleAll (fun _ _ ↦ True) sampleEnv sampleConfig
      ([(unsignedBlock, some [])].map fun c ↦ .block c.1 c.2) sampleStart).map
      (fun t ↦ t.mainChain.headerChain.all fun x ↦
        (t.blockStore.lookup (x.hash sampleEnv.toSodium)).isSome) = some false := by decide +kernel
  obtain ⟨t, ht, hfalse⟩ := Option.map_eq_some_iff.mp hrun
  have hformed := h _ _ _ _ t _ _ genesis_sample create_sample (by decide +kernel) ht
  have hall := List.all_eq_true.mpr hformed.main
  exact absurd (hfalse.symm.trans hall) Bool.false_ne_true

end FheBlockchain.Chain.WellFormed
