import FheBlockchain.Chain.Node
import FheBlockchain.Chain.Placement

namespace FheBlockchain.Chain.Difficulty

open Core.Transactions Core.Blocks Store.Pools Validation ValidationFacts Manager AppendFacts
open Accepted Exceptions ReorgFacts Placement Node
open Store.Chainstate hiding M addBlock
open Store.Coins hiding M
open Library.Execution Library.Results

variable {env : Env} {cfg : Config} {s t : ChainManager} {block : Block} {fork : Fork}

section Retarget

variable {chain : List BlockHeader} {height difficulty : UInt32} {i : ℕ}

def firstRead (cfg : Config) (i : ℕ) : UInt32 := (UInt32.ofNat i - 1) * cfg.blocksPerEpoch

def lastRead (cfg : Config) (i : ℕ) : UInt32 := UInt32.ofNat i * cfg.blocksPerEpoch - 1

theorem adjustDifficulty_iff {d : UInt32} :
    adjustDifficulty env cfg chain difficulty (UInt32.ofNat i) = .ok d ↔
      ∃ first last, chain[(firstRead cfg i).toNat]? = some first ∧
        chain[(lastRead cfg i).toNat]? = some last ∧
        d = env.retarget (cfg.secondsPerBlock * cfg.blocksPerEpoch.toUInt64.toInt64)
          (last.timestamp - first.timestamp) difficulty := by
  have hread {idx : UInt32} {header : BlockHeader} :
      headerAt chain idx = .ok header ↔ chain[idx.toNat]? = some header := by
    rw [headerAt]
    cases chain[idx.toNat]? with
    | none => simp
    | some header' => simp
  rw [adjustDifficulty]
  simp only [bind_eq_ok, hread, pure, Except.pure, Except.ok.injEq]
  constructor
  · rintro ⟨first, hfirst, last, hlast, rfl⟩
    exact ⟨first, last, hfirst, hlast, rfl⟩
  · rintro ⟨first, last, hfirst, hlast, rfl⟩
    exact ⟨first, hfirst, last, hlast, rfl⟩

/-- The first round of the loop over epochs reads at `-1`. -/
theorem adjustDifficulty_zero (hlen : chain.length < 2 ^ 32) (d : UInt32) :
    adjustDifficulty env cfg chain difficulty 0 ≠ .ok d := by
  intro h
  obtain ⟨first, last, -, hlast, -⟩ := (adjustDifficulty_iff (i := 0)).mp h
  have hout : chain[(lastRead cfg 0).toNat]? = none := by
    rw [lastRead, show UInt32.ofNat 0 = 0 from rfl, UInt32.zero_mul]
    exact List.getElem?_eq_none (by simpa using Nat.le_of_lt_succ hlen)
  rw [hout] at hlast
  contradiction

/-- No difficulty is ever adjusted: from the end of the first epoch on there is
none at all. -/
theorem getDifficultyForHeight_iff (hlen : chain.length < 2 ^ 32) :
    getDifficultyForHeight env cfg chain height = .ok difficulty ↔
      height < cfg.blocksPerEpoch ∧ difficulty = cfg.difficulty := by
  by_cases hzero : cfg.blocksPerEpoch = 0
  · simp [getDifficultyForHeight, getEpoch, hzero, bind, Except.bind]
  have hepochs : getDifficultyForHeight env cfg chain height =
      (List.range (height.toNat / cfg.blocksPerEpoch.toNat)).foldlM
        (fun d i ↦ adjustDifficulty env cfg chain d (UInt32.ofNat i)) cfg.difficulty := by
    rw [getDifficultyForHeight, getEpoch, if_neg hzero]
    simp only [bind, Except.bind, UInt32.toNat_div]
  rw [hepochs, UInt32.lt_iff_toNat_lt]
  by_cases hlt : height.toNat < cfg.blocksPerEpoch.toNat
  · rw [Nat.div_eq_of_lt hlt]
    simp [hlt, pure, Except.pure, eq_comm]
  · have hpos : 0 < cfg.blocksPerEpoch.toNat := by
      refine Nat.pos_of_ne_zero fun h ↦ hzero ?_
      exact UInt32.toNat_inj.mp h
    obtain ⟨n, hn⟩ := Nat.exists_eq_succ_of_ne_zero
      (Nat.div_pos (Nat.le_of_not_lt hlt) hpos).ne'
    rw [hn, Nat.succ_eq_add_one, List.range_succ_eq_map, List.foldlM_cons, bind_eq_ok]
    simp only [hlt, false_and, iff_false, not_exists, not_and]
    intro d hd
    exact absurd hd (adjustDifficulty_zero hlen d)

end Retarget

theorem headerTaken_height {chain : List BlockHeader} {header : BlockHeader} {height : UInt32}
    (hlen : chain.length < 2 ^ 32)
    (h : validateHeaderUnsafe env cfg chain header height = .ok true) :
    height < cfg.blocksPerEpoch ∧ header.difficulty = cfg.difficulty := by
  rw [validateHeaderUnsafe, bind_eq_ok] at h
  obtain ⟨d, hd, h⟩ := h
  obtain ⟨hlt, rfl⟩ := (getDifficultyForHeight_iff hlen).mp hd
  refine ⟨hlt, ?_⟩
  by_contra hne
  rw [if_pos (Ne.symm hne)] at h
  cases h

/-- No chain leaves the first epoch. -/
structure FirstEpoch (cfg : Config) (s : ChainManager) : Prop where
  main : s.mainChain.headerChain.length ≤ max 1 cfg.blocksPerEpoch.toNat
  forks : ∀ f ∈ s.forks, f.chainSrc.toNat + f.headerChain.length < cfg.blocksPerEpoch.toNat

/-- A block that is handed in on top of the main chain has been mined there, so
the miner has computed the difficulty of its height. -/
def Mined (env : Env) (cfg : Config) (s : ChainManager) : Event → Prop
  | .block block (some _) => canAttach env s.mainChain.headerChain block.header = true →
    ∃ d, getDifficultyForHeight env cfg s.mainChain.headerChain
      (UInt32.ofNat s.mainChain.headerChain.length) = .ok d
  | _ => True

theorem FirstEpoch.main_lt (h : FirstEpoch cfg s) : s.mainChain.headerChain.length < 2 ^ 32 := by
  have := cfg.blocksPerEpoch.toNat_lt
  have := h.main
  omega

theorem FirstEpoch.next_lt (h : FirstEpoch cfg s)
    (hlt : UInt32.ofNat s.mainChain.headerChain.length < cfg.blocksPerEpoch) :
    s.mainChain.headerChain.length < cfg.blocksPerEpoch.toNat := by
  rwa [UInt32.lt_iff_toNat_lt, UInt32.toNat_ofNat', Nat.mod_eq_of_lt h.main_lt] at hlt

theorem FirstEpoch.appended {v : Option (List (List UInt64))} (h : FirstEpoch cfg s)
    (hv : v.isSome → canAttach env s.mainChain.headerChain block.header = true →
      ∃ d, getDifficultyForHeight env cfg s.mainChain.headerChain
        (UInt32.ofNat s.mainChain.headerChain.length) = .ok d)
    (ht : Appended env cfg s block v t) : FirstEpoch cfg t := by
  rcases ht with rfl | ⟨head, txs, hr, hforks, hchain, -⟩
  · exact h
  have hlt : s.mainChain.headerChain.length < cfg.blocksPerEpoch.toNat := by
    apply h.next_lt
    cases v with
    | none =>
      obtain ⟨cb, rest, cks, hb, -⟩ := validateBlock_some hr.checked
      exact (headerTaken_height h.main_lt hb.header).1
    | some amounts =>
      obtain ⟨d, hd⟩ := hv rfl (by simp [canAttach, hr.head_eq, hr.attaches])
      exact ((getDifficultyForHeight_iff h.main_lt).mp hd).1
  refine ⟨?_, ?_⟩
  · rw [hchain, List.length_append, List.length_singleton]
    omega
  · rw [hforks]
    exact h.forks

theorem post_reorg_firstEpoch {k : ℕ} (h : FirstEpoch cfg s)
    (hlen : fork.chainSrc.toNat + fork.headerChain.length < cfg.blocksPerEpoch.toNat) :
    Post (reorg env cfg k fork) s (fun _ ↦ FirstEpoch cfg) (fun _ ↦ FirstEpoch cfg) := by
  refine post_reorg_keeps h (fun _ ht ↦ ht) (fun _ _ ht ↦ ⟨ht.main, ht.forks⟩) (fun t ht ↦ ?_)
    (fun t x b ht _ ↦ ?_) (fun idx t trimmed w ht htrim ↦ ?_) fun srcHeader t w hsrc ht ↦ ?_
  · refine ⟨?_, ht.forks⟩
    rw [truncated, List.length_take]
    exact (min_le_right _ _).trans ht.main
  · exact (post_append_chain t b none).mono (fun _ _ hu ↦ ht.appended (by simp) hu)
      fun _ _ hu ↦ ht.appended (by simp) hu
  · obtain ⟨-, rfl⟩ := trimFork_ok htrim
    refine ⟨ht.main, fun f hf ↦ ?_⟩
    rcases List.mem_or_eq_of_mem_set hf with hf | rfl
    · exact ht.forks f hf
    · have hle := List.length_take_le' idx fork.headerChain
      exact (Nat.add_le_add_left hle fork.chainSrc.toNat).trans_lt hlen
  · refine ⟨ht.main, fun f hf ↦ ?_⟩
    rcases List.mem_append.mp hf with hf | hf
    · exact ht.forks f (List.mem_of_mem_eraseIdx hf)
    · have hmain := h.main
      obtain ⟨hsrc, -⟩ := List.getElem?_eq_some_iff.mp hsrc
      simp only [List.mem_singleton.mp hf, oldFork, List.length_drop]
      omega

theorem grown_lt {header : BlockHeader} (hlen : fork.headerChain.length < 2 ^ 32)
    (hsum : fork.chainSrc.toNat + fork.headerChain.length < 2 ^ 32 - 1)
    (h : ForkTakes env cfg fork header) (header' : BlockHeader) :
    (grown fork header').chainSrc.toNat + (grown fork header').headerChain.length <
      cfg.blocksPerEpoch.toNat := by
  have hlt := (headerTaken_height hlen h).1
  rw [UInt32.lt_iff_toNat_lt, Fork.currentForkHeight, UInt32.toNat_add, UInt32.toNat_ofNat',
    UInt32.toNat_one] at hlt
  simp only [grown, List.length_append, List.length_singleton]
  omega

theorem post_handle_firstEpoch (h : FirstEpoch cfg s) (event : Event)
    (hm : Mined env cfg s event) :
    Post (handle env cfg event) s (fun _ ↦ FirstEpoch cfg) (fun _ ↦ FirstEpoch cfg) := by
  have hsame {t : ChainManager} (ht : SameChains s t) : FirstEpoch cfg t := by
    refine ⟨?_, ?_⟩
    · rw [ht.mainChain]
      exact h.main
    · rw [ht.forks]
      exact h.forks
  cases event with
  | tx tx => exact (addTx_sameChains s tx).mono (fun _ _ ht ↦ hsame ht) fun _ _ ht ↦ hsame ht
  | computation comp =>
    exact (addComputation_sameChains s comp).mono (fun _ _ ht ↦ hsame ht) fun _ _ ht ↦ hsame ht
  | block block mined =>
    refine post_addBlock h (fun _ _ _ ht ↦ ht) (fun _ ↦ ?_) (fun k fork _ hfind htakes ↦ ?_)
      fun i src total _ _ hatt htakes ↦ ?_
    · have hv : mined.isSome → canAttach env s.mainChain.headerChain block.header = true →
          ∃ d, getDifficultyForHeight env cfg s.mainChain.headerChain
            (UInt32.ofNat s.mainChain.headerChain.length) = .ok d := by
        cases mined with
        | none => simp
        | some amounts => exact fun _ ↦ hm
      exact (post_append_chain s block mined).mono
        (fun _ _ hu _ ↦ ⟨(h.appended hv hu).main, (h.appended hv hu).forks⟩)
        fun _ _ hu ↦ h.appended hv hu
    · have hmem := h.forks fork (List.mem_of_getElem? (findFork_some hfind).2.1)
      have hbpe := cfg.blocksPerEpoch.toNat_lt
      have hgrown := grown_lt (by omega) (by omega) htakes
        (link env fork.head block).header
      have hset : FirstEpoch cfg { withStored env s (link env fork.head block) with
          forks := s.forks.set k (grown fork (link env fork.head block).header) } := by
        refine ⟨h.main, fun f hf ↦ ?_⟩
        rcases List.mem_or_eq_of_mem_set hf with hf | rfl
        · exact h.forks f hf
        · exact hgrown
      exact ⟨fun _ ↦ hset, fun _ ↦ post_reorg_firstEpoch hset hgrown⟩
    · refine ⟨h.main, fun f hf ↦ ?_⟩
      rcases List.mem_append.mp hf with hf | hf
      · exact h.forks f hf
      · obtain ⟨hi, -⟩ := List.getElem?_eq_some_iff.mp (findAttachment_some hatt).2.1
        have hlen := h.main
        have hbpe := cfg.blocksPerEpoch.toNat_lt
        rw [List.mem_singleton.mp hf]
        refine grown_lt (by simp [newFork]) ?_ htakes _
        simp only [newFork, UInt32.toNat_ofNat', List.length_nil]
        omega

theorem firstEpoch_of_run {wallet : Wallet} (hs : create env cfg wallet = .ok s)
    (hrun : Run env cfg (Mined env cfg) s t) : FirstEpoch cfg t := by
  refine hrun.invariant ?_ fun _ event h hm ↦ post_handle_firstEpoch h event hm
  obtain ⟨genesis, -, rfl⟩ := create_ok hs
  exact ⟨le_max_left _ _, by simp [started]⟩

/-- At the height of the next block of a fork, the fork and the main chain made
of the headers up to its branch point and of its own ask for one difficulty. -/
def SameDifficulty (env : Env) (cfg : Config) (chain : List BlockHeader) (fork : Fork) : Prop :=
  ∃ d, getDifficultyForHeight env cfg fork.headerChain (fork.currentForkHeight + 1) = .ok d ∧
    getDifficultyForHeight env cfg (chain.take (fork.chainSrc.toNat + 1) ++ fork.headerChain)
      (fork.currentForkHeight + 1) = .ok d

def ForkOf (s : ChainManager) (fork : Fork) : Prop :=
  fork ∈ s.forks ∨
    ∃ i src total, i < s.mainChain.headerChain.length ∧ fork = newFork i src total

theorem FirstEpoch.fork_le (h : FirstEpoch cfg s) (hf : ForkOf s fork) :
    fork.chainSrc.toNat + fork.headerChain.length < max 1 cfg.blocksPerEpoch.toNat := by
  rcases hf with hf | ⟨i, src, total, hi, rfl⟩
  · have := h.forks fork hf
    omega
  · have hmain := h.main
    have hbpe := cfg.blocksPerEpoch.toNat_lt
    simp only [newFork, UInt32.toNat_ofNat', List.length_nil]
    omega

/-- In every state reached, fork and main chain agree on the difficulty of the
fork's next block just when that block lies in the first epoch. -/
theorem same_difficulty_iff {wallet : Wallet} (hs : create env cfg wallet = .ok s)
    (hrun : Run env cfg (Mined env cfg) s t) (hf : ForkOf t fork) :
    SameDifficulty env cfg t.mainChain.headerChain fork ↔
      fork.currentForkHeight + 1 < cfg.blocksPerEpoch := by
  have hend := firstEpoch_of_run hs hrun
  have hlen := hend.fork_le hf
  have hbpe := cfg.blocksPerEpoch.toNat_lt
  have hjoined : (t.mainChain.headerChain.take (fork.chainSrc.toNat + 1) ++
      fork.headerChain).length < 2 ^ 32 := by
    rw [List.length_append]
    have := List.length_take_le (fork.chainSrc.toNat + 1) t.mainChain.headerChain
    omega
  constructor
  · rintro ⟨d, hd, -⟩
    exact ((getDifficultyForHeight_iff (by omega)).mp hd).1
  · intro hlt
    exact ⟨cfg.difficulty, (getDifficultyForHeight_iff (by omega)).mpr ⟨hlt, rfl⟩,
      (getDifficultyForHeight_iff hjoined).mpr ⟨hlt, rfl⟩⟩

theorem Received.mined {event : Event} (h : Received s event) : Mined env cfg s event := by
  cases event with
  | block block mined =>
    cases mined with
    | none => trivial
    | some amounts => cases h
  | tx tx => trivial
  | computation comp => trivial

def shortConfig : Config := { sampleConfig with blocksPerEpoch := 2 }

theorem create_short : create sampleEnv shortConfig sampleWallet = .ok sampleStart :=
  create_sample

def mainBlock : Block := sampleBlock sampleGenesis 1 [coinbaseTransaction sampleKey 50 1]

def forkBlock : Block := sampleBlock sampleGenesis 2 [coinbaseTransaction sampleKey 50 1]

theorem forked_short : ∃ t fork, Run sampleEnv shortConfig Received sampleStart t ∧
    fork ∈ t.forks ∧ fork.currentForkHeight + 1 = 2 ∧ fork.headerChain.length = 1 := by
  have hrun : (handleAll Received sampleEnv shortConfig
      [.block mainBlock none, .block forkBlock none] sampleStart).map
      (fun t ↦ t.forks.map fun f ↦ (f.currentForkHeight + 1, f.headerChain.length)) =
        some [(2, 1)] := by decide +kernel
  obtain ⟨t, ht, hforks⟩ := Option.map_eq_some_iff.mp hrun
  obtain ⟨fork, hfork, hat⟩ := List.map_eq_singleton_iff.mp hforks
  exact ⟨t, fork, handleAll_run .start ht, by simp [hfork], (Prod.mk.inj hat).1, (Prod.mk.inj hat).2⟩

theorem same_difficulty_short : ∃ t fork, Run sampleEnv shortConfig Received sampleStart t ∧
    fork ∈ t.forks ∧ ¬ SameDifficulty sampleEnv shortConfig t.mainChain.headerChain fork := by
  obtain ⟨t, fork, hrun, hmem, hheight, -⟩ := forked_short
  refine ⟨t, fork, hrun, hmem, fun h ↦ ?_⟩
  have hlt := (same_difficulty_iff create_short (hrun.mono fun _ _ ↦ Received.mined)
    (.inl hmem)).mp h
  rw [hheight] at hlt
  exact absurd hlt (by decide)

theorem difficulty_undefined :
    ¬ ∀ (env : Env) (cfg : Config) (wallet : Wallet) (s t : ChainManager) (fork : Fork),
      create env cfg wallet = .ok s → Run env cfg Received s t → fork ∈ t.forks →
      SameDifficulty env cfg t.mainChain.headerChain fork := by
  intro h
  obtain ⟨t, fork, hrun, hmem, hheight, hlen⟩ := forked_short
  obtain ⟨d, hd, -⟩ := h _ _ _ _ t fork create_short hrun hmem
  have hlt := ((getDifficultyForHeight_iff (by omega)).mp hd).1
  rw [hheight] at hlt
  exact absurd hlt (by decide)

end FheBlockchain.Chain.Difficulty
