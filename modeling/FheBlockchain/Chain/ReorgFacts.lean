import FheBlockchain.Chain.AppendFacts

namespace FheBlockchain.Chain.ReorgFacts

open Core.Transactions Core.Blocks Store.ChainstateEffects Store.Pools Validation
open Store.Chainstate hiding M
open Store.Coins hiding M
open Manager AppendFacts
open Library.Execution

variable {env : Env} {cfg : Config}

def truncated (size : ℕ) (s : ChainManager) : ChainManager :=
  { s with mainChain := { s.mainChain with headerChain := s.mainChain.headerChain.take size } }

def oldFork (main : MainChain) (chainSrc : UInt32) (srcHeader : BlockHeader) : Fork where
  chainSrc := chainSrc
  chainSrcHeader := srcHeader
  headerChain := main.headerChain.drop (chainSrc.toNat + 1)
  totalDifficulty := main.totalDifficulty

/-- The state after a fork has lost, without its headers from `idx` on. -/
def restored (k : ℕ) (fork : Fork) (totalDifficulty : ℕ) (s : ChainManager) : ChainManager :=
  { s with
    forks := s.forks.set k fork
    mainChain := { s.mainChain with totalDifficulty := totalDifficulty } }

def replaced (k : ℕ) (fork old : Fork) (s : ChainManager) : ChainManager :=
  { s with
    forks := s.forks.eraseIdx k ++ [old]
    mainChain := { s.mainChain with totalDifficulty := fork.totalDifficulty } }

def rescanned (s : ChainManager) : M Unit :=
  onWallet (rescan env.toSodium s.mainChain.headerChain s.blockStore)

theorem reorg_eq {k : ℕ} {fork : Fork} {s : ChainManager} {srcHeader : BlockHeader}
    (hsrc : s.mainChain.headerChain[fork.chainSrc.toNat]? = some srcHeader) :
    reorg env cfg k fork s = (do
      rewindHeaders env (s.mainChain.headerChain.drop (fork.chainSrc.toNat + 1)).reverse
      modify (truncated (fork.chainSrc.toNat + 1))
      match ← appendFork env cfg 0 fork.headerChain with
      | some idx =>
        let u ← get
        rewindHeaders env (u.mainChain.headerChain.drop (fork.chainSrc.toNat + 1)).reverse
        modify (truncated (fork.chainSrc.toNat + 1))
        reappendOld env cfg (s.mainChain.headerChain.drop (fork.chainSrc.toNat + 1))
        let trimmed ← Exec.ofExcept (trimFork fork idx)
        modify (restored k trimmed s.mainChain.totalDifficulty)
        let u ← get
        @rescanned env u
      | none =>
        modify (replaced k fork (oldFork s.mainChain fork.chainSrc srcHeader))
        let u ← get
        @rescanned env u : M Unit) s := by
  have hat : headerAt s.mainChain.headerChain fork.chainSrc = .ok srcHeader := by
    rw [headerAt, hsrc]
  simp only [reorg, run_bind_get, hat, run_bind_ofExcept_ok]
  rfl

theorem trimFork_ok {fork fork' : Fork} {idx : ℕ} (h : trimFork fork idx = .ok fork') :
    0 < idx ∧ fork' = { fork with
      headerChain := fork.headerChain.take idx
      totalDifficulty := (fork.headerChain.drop idx).reverse.foldl
        (fun total header ↦ total - header.difficulty.toNat) fork.totalDifficulty } := by
  rw [trimFork] at h
  split_ifs at h with h0
  exact ⟨Nat.pos_of_ne_zero h0, (Except.ok.inj h).symm⟩

theorem post_rescanned {s : ChainManager} {Q : ChainManager → Prop}
    {E : Exception → ChainManager → Prop} (hQ : ∀ w, Q { s with wallet := w })
    (hE : ∀ e w, rescan env.toSodium s.mainChain.headerChain s.blockStore s.wallet =
      .error (.throw e) w → E e { s with wallet := w }) :
    Post (@rescanned env s) s (fun _ ↦ Q) E := by
  refine post_focus ?_
  rw [Post]
  split
  next w _ => exact hQ w
  next e w he => exact hE e w he
  · trivial

/-- A reorg in its phases: off with the old tail, on with the fork, and, when
the fork has lost, off with it and on with the old tail again. -/
theorem post_reorg {k : ℕ} {fork : Fork} {s : ChainManager} {srcHeader : BlockHeader}
    {C W : ChainManager → Prop} {L A B : ℕ → ChainManager → Prop}
    {Q : ChainManager → Prop} {E : Exception → ChainManager → Prop}
    (hsrc : s.mainChain.headerChain[fork.chainSrc.toNat]? = some srcHeader)
    (hcut : Post (rewindHeaders env
      (s.mainChain.headerChain.drop (fork.chainSrc.toNat + 1)).reverse) s
      (fun _ t ↦ C (truncated (fork.chainSrc.toNat + 1) t)) E)
    (hfork : ∀ t, C t → Post (appendFork env cfg 0 fork.headerChain) t
      (fun r u ↦ r.elim (W u) fun idx ↦ L idx u) E)
    (hlost : ∀ idx u, L idx u → Post (rewindHeaders env
      (u.mainChain.headerChain.drop (fork.chainSrc.toNat + 1)).reverse) u
      (fun _ t ↦ A idx (truncated (fork.chainSrc.toNat + 1) t)) E)
    (hback : ∀ idx t, A idx t → Post (reappendOld env cfg
      (s.mainChain.headerChain.drop (fork.chainSrc.toNat + 1))) t (fun _ u ↦ B idx u) E)
    (hrestored : ∀ idx u trimmed w, B idx u → trimFork fork idx = .ok trimmed →
      Q { restored k trimmed s.mainChain.totalDifficulty u with wallet := w })
    (hwon : ∀ u w, W u →
      Q { replaced k fork (oldFork s.mainChain fork.chainSrc srcHeader) u with wallet := w })
    (hE : ∀ e (u : ChainManager) w, (∀ w, Q { u with wallet := w }) →
      rescan env.toSodium u.mainChain.headerChain u.blockStore u.wallet = .error (.throw e) w →
      E e { u with wallet := w }) : Post (reorg env cfg k fork) s (fun _ ↦ Q) E := by
  rw [Post, reorg_eq hsrc, ← Post]
  refine hcut.bind fun _ t ht ↦ post_bind_modify.mpr ((hfork _ ht).bind fun r u hu ↦ ?_)
  cases r with
  | none =>
    have hq (w) := hwon u w hu
    exact post_bind_modify.mpr (post_bind_get.mpr (post_rescanned hq fun e w ↦ hE e _ w hq))
  | some idx =>
    refine post_bind_get.mpr ((hlost idx u hu).bind fun _ t ht ↦ post_bind_modify.mpr ?_)
    refine (hback idx _ ht).bind fun _ z hz ↦ post_bind_ofExcept (fun trimmed htrim ↦ ?_) ?_
    · have hq (w) := hrestored idx z trimmed w hz htrim
      exact post_bind_modify.mpr (post_bind_get.mpr (post_rescanned hq fun e w ↦ hE e _ w hq))
    · intro e he
      rw [trimFork] at he
      split_ifs at he
      cases he

section Loops

variable {E : Exception → ChainManager → Prop}

theorem getBlock_of_lookup {store : MemBlockStore} {hash : Bytes} {block : Block}
    (h : store.lookup hash = some block) : store.getBlock hash = .ok block := by
  rw [MemBlockStore.getBlock, h]

theorem post_rewindHeaders (headers : List BlockHeader) (s : ChainManager) :
    Post (rewindHeaders env headers) s (fun _ t ↦ t = { s with chainstate := t.chainstate })
      fun _ t ↦ t = { s with chainstate := t.chainstate } := by
  induction headers generalizing s with
  | nil => rfl
  | cons header headers ih =>
    refine Post.bind (R := fun _ t ↦ t = { s with chainstate := t.chainstate }) ?_ fun _ t ht ↦ ?_
    · refine post_bind_get.mpr (post_bind_ofExcept (fun block _ ↦ ?_) fun _ _ ↦ rfl)
      exact post_focus ((post_true _ _).mono (fun _ _ _ ↦ rfl) fun _ _ _ ↦ rfl)
    · refine (ih t).mono (fun _ u hu ↦ ?_) fun _ u hu ↦ ?_
      · rw [hu, ht]
      · rw [hu, ht]

theorem rewindHeaders_run {blocks : List Block} {s : ChainManager} {cs : MemChainstate}
    (hstored : ∀ b ∈ blocks, s.blockStore.lookup (b.hash env.toSodium) = some b)
    (h : blocks.forM (rewindBlock env.toSodium) s.chainstate = .ok () cs) :
    rewindHeaders env (blocks.map Block.header) s = .ok () { s with chainstate := cs } := by
  induction blocks generalizing s with
  | nil =>
    cases h
    rfl
  | cons block blocks ih =>
    rw [forM_cons] at h
    cases hb : rewindBlock env.toSodium block s.chainstate with
    | error e cs' => simp [hb] at h
    | ok _ cs' =>
      rw [hb] at h
      have hget := getBlock_of_lookup (hstored block (by simp))
      have hone : (do
          let b ← Exec.ofExcept ((← get).blockStore.getBlock (block.header.hash env.toSodium))
          onChainstate (rewindBlock env.toSodium b) : M Unit) s =
          .ok () { s with chainstate := cs' } := by
        change (Exec.ofExcept (s.blockStore.getBlock (block.hash env.toSodium)) >>= _) s = _
        rw [hget, run_bind_ofExcept_ok]
        exact focus_of_ok hb
      rw [rewindHeaders, List.map_cons, forM_cons, hone]
      exact ih (s := { s with chainstate := cs' }) (fun b hb ↦ hstored b (by simp [hb])) h

/-- Appending a fork: `I` says what holds before the remaining headers, `J` what
holds when the first of them has been refused. -/
theorem post_appendFork {I J : List BlockHeader → ChainManager → Prop}
    (step : ∀ h rest t, I (h :: rest) t → ∃ block,
      t.blockStore.lookup (h.hash env.toSodium) = some block ∧
      Post (appendBlock env cfg block none) t
        (fun r u ↦ if r then I rest u else J (h :: rest) u) E)
    {headers : List BlockHeader} {s : ChainManager} (idx : ℕ) (hs : I headers s) :
    Post (appendFork env cfg idx headers) s
      (fun r u ↦ r.elim (I [] u) fun i ↦ ∃ done h rest,
        headers = done ++ h :: rest ∧ i = idx + done.length ∧ J (h :: rest) u) E := by
  induction headers generalizing s idx with
  | nil => exact hs
  | cons header headers ih =>
    obtain ⟨block, hlook, happ⟩ := step header headers s hs
    refine post_bind_get.mpr ?_
    rw [getBlock_of_lookup hlook]
    refine post_bind_ofExcept_ok.mpr (happ.bind fun r u hu ↦ ?_)
    cases r with
    | false => exact ⟨[], header, headers, rfl, rfl, hu⟩
    | true =>
      refine (ih (idx + 1) hu).mono (fun r w hw ↦ ?_) fun _ _ he ↦ he
      cases r with
      | none => exact hw
      | some i =>
        obtain ⟨done, h, rest, rfl, rfl, hJ⟩ := hw
        exact ⟨header :: done, h, rest, rfl, by rw [List.length_cons]; omega, hJ⟩

theorem post_reappendOld {I : List BlockHeader → ChainManager → Prop}
    (step : ∀ h rest t, I (h :: rest) t → ∃ block,
      t.blockStore.lookup (h.hash env.toSodium) = some block ∧
      Post (appendBlock env cfg block none) t (fun r u ↦ r = true → I rest u) E)
    {headers : List BlockHeader} {s : ChainManager} (hs : I headers s) :
    Post (reappendOld env cfg headers) s (fun _ u ↦ I [] u) E := by
  induction headers generalizing s with
  | nil => exact hs
  | cons header headers ih =>
    obtain ⟨block, hlook, happ⟩ := step header headers s hs
    refine Post.bind (R := fun _ u ↦ I headers u) ?_ fun _ u hu ↦ ih hu
    refine post_bind_get.mpr ?_
    rw [getBlock_of_lookup hlook]
    refine post_bind_ofExcept_ok.mpr (happ.bind fun r u hu ↦ ?_)
    cases r with
    | false => trivial
    | true => exact hu rfl

section Counting

variable {W : ℕ → ChainManager → Prop} {K : List BlockHeader → ChainManager → Prop}
variable {headers : List BlockHeader} {s : ChainManager}

theorem post_appendFork_counting
    (step : ∀ h rest n t, n + rest.length < headers.length → W n t → K (h :: rest) t → ∃ block,
      t.blockStore.lookup (h.hash env.toSodium) = some block ∧
      Post (appendBlock env cfg block none) t
        (fun r u ↦ if r then W (n + 1) u ∧ K rest u else u = t) E)
    (hs : W 0 s) (hK : K headers s) :
    Post (appendFork env cfg 0 headers) s
      (fun r u ↦ r.elim (W headers.length u) fun idx ↦ idx < headers.length ∧ ∃ m, W m u) E := by
  refine (post_appendFork
    (I := fun rest u ↦ ∃ n, W n u ∧ n + rest.length = headers.length ∧ K rest u)
    (J := fun _ u ↦ ∃ m, W m u)
    (fun x rest u hu ↦ ?_) 0 ⟨0, hs, Nat.zero_add _, hK⟩).mono (fun r u hu ↦ ?_) fun _ _ he ↦ he
  · obtain ⟨n, hW, hlen, hrest⟩ := hu
    rw [List.length_cons] at hlen
    obtain ⟨b, hb, hpost⟩ := step x rest n u (by omega) hW hrest
    refine ⟨b, hb, hpost.mono (fun r w hw ↦ ?_) fun _ _ he ↦ he⟩
    cases r with
    | false =>
      rw [show w = u from hw]
      exact ⟨n, hW⟩
    | true => exact ⟨n + 1, hw.1, by omega, hw.2⟩
  · cases r with
    | none =>
      obtain ⟨n, hW, hlen, -⟩ := hu
      rw [List.length_nil, Nat.add_zero] at hlen
      rwa [hlen] at hW
    | some idx =>
      obtain ⟨done, x, rest, rfl, rfl, hW⟩ := hu
      exact ⟨by simp, hW⟩

theorem post_reappendOld_counting
    (step : ∀ h rest n t, n + rest.length < headers.length → W n t → K (h :: rest) t → ∃ block,
      t.blockStore.lookup (h.hash env.toSodium) = some block ∧
      Post (appendBlock env cfg block none) t
        (fun r u ↦ if r then W (n + 1) u ∧ K rest u else u = t) E)
    (hs : W 0 s) (hK : K headers s) :
    Post (reappendOld env cfg headers) s (fun _ u ↦ W headers.length u) E := by
  refine (post_reappendOld
    (I := fun rest u ↦ ∃ n, W n u ∧ n + rest.length = headers.length ∧ K rest u)
    (fun x rest u hu ↦ ?_) ⟨0, hs, Nat.zero_add _, hK⟩).mono (fun _ u hu ↦ ?_) fun _ _ he ↦ he
  · obtain ⟨n, hW, hlen, hrest⟩ := hu
    rw [List.length_cons] at hlen
    obtain ⟨b, hb, hpost⟩ := step x rest n u (by omega) hW hrest
    refine ⟨b, hb, hpost.mono (fun r w hw hr ↦ ?_) fun _ _ he ↦ he⟩
    rw [if_pos hr] at hw
    exact ⟨n + 1, hw.1, by omega, hw.2⟩
  · obtain ⟨n, hW, hlen, -⟩ := hu
    rw [List.length_nil, Nat.add_zero] at hlen
    rwa [hlen] at hW

end Counting

end Loops

section Keeps

variable {P : MemBlockStore → Prop} {s : ChainManager}

theorem getBlock_ok {store : MemBlockStore} {hash : Bytes} {block : Block}
    (h : store.getBlock hash = .ok block) : store.lookup hash = some block := by
  rw [MemBlockStore.getBlock] at h
  split at h
  next b hb =>
    cases h
    exact hb
  · contradiction

theorem post_appendFork_keeps {K I : ChainManager → Prop}
    (happend : ∀ t h b, K t → t.blockStore.lookup h = some b →
      Post (appendBlock env cfg b none) t (fun _ ↦ K) (fun _ ↦ I))
    (hI : ∀ t, K t → I t) (idx : ℕ) (headers : List BlockHeader) (hs : K s) :
    Post (appendFork env cfg idx headers) s (fun _ ↦ K) (fun _ ↦ I) := by
  induction headers generalizing s idx with
  | nil => exact hs
  | cons header headers ih =>
    refine post_bind_get.mpr (post_bind_ofExcept (fun block hb ↦ ?_) fun _ _ ↦ hI s hs)
    refine (happend s _ block hs (getBlock_ok hb)).bind fun r u hu ↦ ?_
    cases r with
    | false => exact hu
    | true => exact ih (idx + 1) hu

/-- An invariant of rewinding, of truncating at the branch point and of
appending stored blocks, which gives `I` at the end, gives it after a reorg. -/
theorem post_reorg_keeps {k : ℕ} {fork : Fork} {K I : ChainManager → Prop} (hs : K s)
    (hI : ∀ t, K t → I t) (hrewind : ∀ t cs, K t → K { t with chainstate := cs })
    (hcut : ∀ t, K t → K (truncated (fork.chainSrc.toNat + 1) t))
    (happend : ∀ t h b, K t → t.blockStore.lookup h = some b →
      Post (appendBlock env cfg b none) t (fun _ ↦ K) (fun _ ↦ I))
    (hrestored : ∀ idx t trimmed w, K t → trimFork fork idx = .ok trimmed →
      I { restored k trimmed s.mainChain.totalDifficulty t with wallet := w })
    (hwon : ∀ srcHeader t w, s.mainChain.headerChain[fork.chainSrc.toNat]? = some srcHeader → K t →
      I { replaced k fork (oldFork s.mainChain fork.chainSrc srcHeader) t with wallet := w }) :
    Post (reorg env cfg k fork) s (fun _ ↦ I) (fun _ ↦ I) := by
  cases hat : s.mainChain.headerChain[fork.chainSrc.toNat]? with
  | none =>
    rw [Post, reorg]
    simp only [run_bind_get, headerAt, hat, run_bind_ofExcept_error]
  | some srcHeader =>
    have hoff (headers : List BlockHeader) (t : ChainManager) (ht : K t) :
        Post (rewindHeaders env headers) t
          (fun _ u ↦ K (truncated (fork.chainSrc.toNat + 1) u)) (fun _ ↦ I) := by
      refine (post_rewindHeaders headers t).mono (fun _ u hu ↦ ?_) fun _ u hu ↦ ?_
      · rw [hu]
        exact hcut _ (hrewind t u.chainstate ht)
      · rw [hu]
        exact hI _ (hrewind t u.chainstate ht)
    refine post_reorg (C := K) (W := K) (L := fun _ ↦ K) (A := fun _ ↦ K)
      (B := fun _ ↦ K) hat (hoff _ s hs) (fun t ht ↦ ?_) (fun _ u hu ↦ hoff _ u hu)
      (fun _ t ht ↦ ?_) hrestored (fun u w hu ↦ hwon srcHeader u w hat hu) fun _ _ w hq _ ↦ hq w
    · refine (post_appendFork_keeps happend hI 0 fork.headerChain ht).mono (fun r u hu ↦ ?_)
        fun _ _ he ↦ he
      cases r <;> exact hu
    · refine post_forM (fun header _ u hu ↦ ?_) ht
      refine post_bind_get.mpr (post_bind_ofExcept (fun block hb ↦ ?_) fun _ _ ↦ hI u hu)
      refine (happend u _ block hu (getBlock_ok hb)).bind fun r v hv ↦ ?_
      cases r with
      | false => trivial
      | true => exact hv

theorem post_reorg_store
    (step : ∀ t h b, P t.blockStore → t.blockStore.lookup h = some b →
      Post (appendBlock env cfg b none) t (fun _ u ↦ P u.blockStore) (fun _ u ↦ P u.blockStore))
    {k : ℕ} {fork : Fork} (hs : P s.blockStore) :
    Post (reorg env cfg k fork) s (fun _ u ↦ P u.blockStore) (fun _ u ↦ P u.blockStore) :=
  post_reorg_keeps hs (fun _ ht ↦ ht) (fun _ _ ht ↦ ht) (fun _ ht ↦ ht) step
    (fun _ _ _ _ ht _ ↦ ht) fun _ _ _ _ ht ↦ ht

end Keeps

end FheBlockchain.Chain.ReorgFacts
