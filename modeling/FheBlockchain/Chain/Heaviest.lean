import FheBlockchain.Chain.Difficulty
import FheBlockchain.Chain.Judging

namespace FheBlockchain.Chain.Heaviest

open Core.Transactions Core.Blocks Store.Pools Store.PoolFacts Validation ValidationFacts Manager
open AppendFacts Accepted Exceptions ReorgFacts Placement PoolHistory Replay Node Difficulty Judging
open Store.Chainstate hiding M addBlock
open Library.Execution Library.Results

variable {env : Env} {cfg : Config} {s t : ChainManager} {block : Block} {fork : Fork}

section Totals

def totalOf (headers : List BlockHeader) : ℕ := (headers.map fun h ↦ h.difficulty.toNat).sum

/-- The main chain has the total of its headers, and no fork has more. -/
structure HeaviestMain (s : ChainManager) : Prop where
  total : s.mainChain.totalDifficulty = totalOf s.mainChain.headerChain
  forks : ∀ f ∈ s.forks, f.totalDifficulty ≤ s.mainChain.totalDifficulty

instance (s : ChainManager) : Decidable (HeaviestMain s) :=
  decidable_of_iff (s.mainChain.totalDifficulty = totalOf s.mainChain.headerChain ∧
    ∀ f ∈ s.forks, f.totalDifficulty ≤ s.mainChain.totalDifficulty)
    ⟨fun h ↦ ⟨h.1, h.2⟩, fun h ↦ ⟨h.1, h.2⟩⟩

def Even (cfg : Config) (headers : List BlockHeader) : Prop :=
  ∀ h ∈ headers, h.difficulty = cfg.difficulty

variable {headers : List BlockHeader} {header : BlockHeader}

theorem totalOf_even (h : Even cfg headers) :
    totalOf headers = cfg.difficulty.toNat * headers.length := by
  induction headers with
  | nil => rfl
  | cons header headers ih =>
    have hrest := ih fun x hx ↦ h x (List.mem_cons_of_mem _ hx)
    rw [totalOf] at hrest ⊢
    rw [List.map_cons, List.sum_cons, hrest, h header List.mem_cons_self, List.length_cons]
    ring

theorem Even.append_singleton (h : Even cfg headers) (hd : header.difficulty = cfg.difficulty) :
    Even cfg (headers ++ [header]) := by
  intro x hx
  rcases List.mem_append.mp hx with hx | hx
  · exact h x hx
  · rwa [List.mem_singleton.mp hx]

theorem foldl_sub (headers : List BlockHeader) (total : ℕ) :
    headers.foldl (fun total header ↦ total - header.difficulty.toNat) total =
      total - totalOf headers := by
  induction headers generalizing total with
  | nil => simp [totalOf]
  | cons header headers ih =>
    rw [List.foldl_cons, ih, totalOf, totalOf, List.map_cons, List.sum_cons, Nat.sub_sub]

theorem findAttachment_total {src : BlockHeader} {i j total acc : ℕ}
    (h : findAttachment env header j acc headers = some (i, src, total)) :
    total = acc + totalOf (headers.take (i - j + 1)) := by
  induction headers generalizing j acc with
  | nil => simp [findAttachment] at h
  | cons x headers ih =>
    rw [findAttachment] at h
    split_ifs at h with hx
    · simp only [Option.some.injEq, Prod.mk.injEq] at h
      obtain ⟨rfl, -, rfl⟩ := h
      simp [totalOf]
    · have hle := (findAttachment_some h).1
      rw [ih h, show i - j + 1 = (i - (j + 1) + 1) + 1 by omega, List.take_succ_cons, totalOf,
        totalOf, List.map_cons, List.sum_cons, Nat.add_assoc]

end Totals

section Weights

/-- Total difficulties count headers, those up to a fork's branch point
included. -/
structure Weighed (cfg : Config) (s : ChainManager) : Prop where
  even : Even cfg s.mainChain.headerChain
  total : s.mainChain.totalDifficulty = cfg.difficulty.toNat * s.mainChain.headerChain.length
  forks : ∀ f ∈ s.forks, Even cfg f.headerChain ∧
    f.totalDifficulty = cfg.difficulty.toNat * (f.chainSrc.toNat + 1 + f.headerChain.length) ∧
    f.totalDifficulty ≤ s.mainChain.totalDifficulty

theorem Weighed.heaviest (h : Weighed cfg s) : HeaviestMain s :=
  ⟨h.total.trans (totalOf_even h.even).symm, fun f hf ↦ (h.forks f hf).2.2⟩

def Resumes (env : Env) (store : MemBlockStore) (a h : BlockHeader) : Prop :=
  ∃ b, store.lookup (h.hash env.toSodium) = some b ∧ b.header.prevHash = a.hash env.toSodium ∧
    Judgeable env b ∧ Identified env.toSodium b

instance (store : MemBlockStore) (a h : BlockHeader) : Decidable (Resumes env store a h) :=
  decidable_of_iff (∃ b ∈ store.lookup (h.hash env.toSodium),
    b.header.prevHash = a.hash env.toSodium ∧ Judgeable env b ∧ Identified env.toSodium b) Iff.rfl

theorem related_of_isChain {α : Type} {R : α → α → Prop} {a x : α} {l : List α}
    (h : (a :: l).IsChain R) (hx : x ∈ l) : ∃ b, R b x := by
  induction l generalizing a with
  | nil => simp at hx
  | cons y l ih =>
    rw [List.isChain_cons_cons] at h
    rcases List.mem_cons.mp hx with rfl | hx
    · exact ⟨a, h.1⟩
    · exact ih h.2 hx

/-- The main chain can be taken off down to the branch point of a fork and put
back, and the blocks of the fork, in turn up to the first one that is refused,
attach there and are judged. -/
def Reorganizable (env : Env) (cfg : Config) (fork : Fork) (s : ChainManager) : Prop :=
  ∀ src, s.mainChain.headerChain[fork.chainSrc.toNat]? = some src →
    (src :: s.mainChain.headerChain.drop (fork.chainSrc.toNat + 1)).IsChain
      (Resumes env s.blockStore) ∧
    ∀ t, rewindHeaders env (s.mainChain.headerChain.drop (fork.chainSrc.toNat + 1)).reverse s =
      .ok () t → Judged env cfg (fun u b ↦ Attaches env u b.header ∧ Judgeable env b) fork.headerChain
        (truncated (fork.chainSrc.toNat + 1) t)

instance (fork : Fork) (s : ChainManager) : Decidable (Reorganizable env cfg fork s) :=
  decidable_of_iff (∀ src ∈ s.mainChain.headerChain[fork.chainSrc.toNat]?,
    (src :: s.mainChain.headerChain.drop (fork.chainSrc.toNat + 1)).IsChain
      (Resumes env s.blockStore) ∧
    ∀ t, rewindHeaders env (s.mainChain.headerChain.drop (fork.chainSrc.toNat + 1)).reverse s =
      .ok () t → Judged env cfg (fun u b ↦ Attaches env u b.header ∧ Judgeable env b) fork.headerChain
        (truncated (fork.chainSrc.toNat + 1) t)) Iff.rfl

/-- A main chain in the middle of a reorg, `n` headers above the branch point. -/
def Counted (env : Env) (cfg : Config) (s : ChainManager) (src n : ℕ) (t : ChainManager) : Prop :=
  ∃ done, Midway env s src done t ∧ Even cfg done ∧ done.length = n

variable {src n : ℕ} {srcHeader : BlockHeader} {headers : List BlockHeader}
variable {E : Exception → ChainManager → Prop}

theorem Counted.append (h : Counted env cfg s src n t) (hlt : src + 1 + n < 2 ^ 32)
    {hash : Bytes} (hb : t.blockStore.lookup hash = some block)
    (hattach : Attaches env t block.header) (hj : Judgeable env block) :
    Post (appendBlock env cfg block none) t
      (fun r u ↦ if r then Counted env cfg s src (n + 1) u ∧ ∃ head,
          u.mainChain.headerChain.getLast? = some head ∧ head.hash env.toSodium = hash
        else u = t) (fun _ _ ↦ False) := by
  obtain ⟨done, hmid, heven, rfl⟩ := h
  refine (hmid.append hb hattach hj).mono (fun r u hu ↦ ?_) fun _ _ he ↦ he
  cases r with
  | false => exact hu
  | true =>
    obtain ⟨head, txs, hr, hhash, hmid'⟩ := hu
    have hlen : t.mainChain.headerChain.length < 2 ^ 32 := by
      have hle := List.length_take_le (src + 1) s.mainChain.headerChain
      rw [hmid.chain, List.length_append]
      omega
    obtain ⟨cb, rest, cks, hvalid, -⟩ := validateBlock_some hr.checked
    have hdiff := (headerTaken_height hlen hvalid.header).2
    refine ⟨⟨_, hmid', heven.append_singleton hdiff, by simp⟩, _, ?_, hhash⟩
    rw [hmid'.chain, ← List.append_assoc, List.getLast?_concat]

theorem Counted.appendFork (h : Counted env cfg s src 0 t)
    (hlt : src + 1 + headers.length < 2 ^ 32)
    (hj : Judged env cfg (fun u b ↦ Attaches env u b.header ∧ Judgeable env b) headers t) :
    Post (appendFork env cfg 0 headers) t
      (fun r u ↦ r.elim (Counted env cfg s src headers.length u) fun idx ↦
        idx < headers.length ∧ ∃ m, Counted env cfg s src m u) E := by
  refine post_appendFork_counting
    (K := Judged env cfg (fun u b ↦ Attaches env u b.header ∧ Judgeable env b))
    (fun x rest n u hn hcount hrest ↦ ?_) h hj
  obtain ⟨b, hb, ⟨hattach, hjudge⟩, hrest⟩ := hrest
  refine ⟨b, hb, (hcount.append (by omega) hb hattach hjudge).run.mono ?_ fun _ _ he ↦ he.elim⟩
  rintro r w ⟨hw, hrun⟩
  cases r with
  | false => exact hw
  | true => exact ⟨hw.1, hrest w hrun⟩

theorem Counted.reappendOld (h : Counted env cfg s src 0 t)
    (hsrc : s.mainChain.headerChain[src]? = some srcHeader)
    (hlt : src + 1 + headers.length < 2 ^ 32)
    (hkept : (srcHeader :: headers).IsChain (Resumes env s.blockStore)) :
    Post (reappendOld env cfg headers) t
      (fun _ u ↦ Counted env cfg s src headers.length u) E := by
  have hlast : t.mainChain.headerChain.getLast? = some srcHeader := by
    obtain ⟨done, hmid, -, hnil⟩ := h
    obtain rfl := List.length_eq_zero_iff.mp hnil
    exact hmid.getLast hsrc
  refine post_reappendOld_counting
    (K := fun rest u ↦ ∃ head a, u.mainChain.headerChain.getLast? = some head ∧
      head.hash env.toSodium = a.hash env.toSodium ∧
      (a :: rest).IsChain (Resumes env s.blockStore))
    (fun x rest n u hn hcount hrest ↦ ?_) h ⟨srcHeader, srcHeader, hlast, rfl, hkept⟩
  obtain ⟨head, a, hhead, hhash, hchain⟩ := hrest
  rw [List.isChain_cons_cons] at hchain
  obtain ⟨⟨b, hb, hprev, hjudge, -⟩, hchain⟩ := hchain
  obtain ⟨done, hmid, -⟩ := id hcount
  have hb' := hmid.grows _ _ hb
  have hattach : Attaches env u b.header := ⟨head, hhead, hprev.trans hhash.symm⟩
  refine ⟨b, hb', (hcount.append (by omega) hb' hattach hjudge).mono (fun r w hw ↦ ?_)
    fun _ _ he ↦ he.elim⟩
  cases r with
  | false => exact hw
  | true =>
    obtain ⟨hw, head', hhead', hhash'⟩ := hw
    exact ⟨hw, head', x, hhead', hhash', hchain⟩

/-- A fork that outweighs the main chain by its last header ends one header
above it. -/
theorem Weighed.level {header : BlockHeader} (h : Weighed cfg s) (hf : fork ∈ s.forks)
    (hdiff : header.difficulty = cfg.difficulty)
    (hheavier : s.mainChain.totalDifficulty < (grown fork header).totalDifficulty) :
    s.mainChain.headerChain.length = fork.chainSrc.toNat + 1 + fork.headerChain.length := by
  obtain ⟨-, htotal, hle⟩ := h.forks fork hf
  rw [grown, hdiff, htotal, ← Nat.mul_succ, h.total] at hheavier
  rw [htotal, h.total] at hle
  have hlt := Nat.lt_of_mul_lt_mul_left hheavier
  have hpos : 0 < cfg.difficulty.toNat := by
    refine Nat.pos_of_ne_zero fun hzero ↦ ?_
    simp [hzero] at hheavier
  have hge := Nat.le_of_mul_le_mul_left hle hpos
  omega

theorem trimFork_even {trimmed : Fork} {idx : ℕ} (heven : Even cfg fork.headerChain)
    (htotal : fork.totalDifficulty =
      cfg.difficulty.toNat * (fork.chainSrc.toNat + 1 + fork.headerChain.length))
    (hidx : idx ≤ fork.headerChain.length) (h : trimFork fork idx = .ok trimmed) :
    Even cfg trimmed.headerChain ∧ trimmed.chainSrc = fork.chainSrc ∧
      trimmed.headerChain.length = idx ∧
      trimmed.totalDifficulty = cfg.difficulty.toNat * (fork.chainSrc.toNat + 1 + idx) := by
  obtain ⟨-, rfl⟩ := trimFork_ok h
  have hdrop : Even cfg (fork.headerChain.drop idx).reverse := fun x hx ↦
    heven x (List.mem_of_mem_drop (List.mem_reverse.mp hx))
  refine ⟨fun x hx ↦ heven x (List.mem_of_mem_take hx), rfl, by simpa using hidx, ?_⟩
  dsimp only
  rw [foldl_sub, totalOf_even hdrop, htotal, List.length_reverse, List.length_drop, ← Nat.mul_sub]
  congr 1
  omega

theorem post_reorg_weighed {header : BlockHeader} {k : ℕ} (h : Weighed cfg s) (hf : fork ∈ s.forks)
    (hdiff : header.difficulty = cfg.difficulty)
    (hheavier : s.mainChain.totalDifficulty < (grown fork header).totalDifficulty)
    (hlt : s.mainChain.headerChain.length + 1 < 2 ^ 32) (hmain : t.mainChain = s.mainChain)
    (hforks : t.forks = s.forks.set k (grown fork header)) (hpool : Indexed env.toSodium t.memPool)
    (hhashed : Hashed env t.blockStore) (hre : Reorganizable env cfg (grown fork header) t) :
    Post (reorg env cfg k (grown fork header)) t
      (fun _ u ↦ Weighed cfg u ∧ s.mainChain.totalDifficulty ≤ u.mainChain.totalDifficulty)
      (fun _ u ↦ Weighed cfg u ∧ s.mainChain.totalDifficulty ≤ u.mainChain.totalDifficulty) := by
  have hlevel := h.level hf hdiff hheavier
  obtain ⟨heven, htotal, hle⟩ := h.forks fork hf
  have heven' : Even cfg (grown fork header).headerChain := heven.append_singleton hdiff
  have htotal' : (grown fork header).totalDifficulty = cfg.difficulty.toNat *
      ((grown fork header).chainSrc.toNat + 1 + (grown fork header).headerChain.length) := by
    simp only [grown, hdiff, htotal, List.length_append, List.length_singleton]
    ring
  set grownFork := grown fork header
  have hlenFork : grownFork.headerChain.length = fork.headerChain.length + 1 := by
    simp [grownFork, grown]
  have hsrcFork : grownFork.chainSrc = fork.chainSrc := rfl
  rw [← hmain] at hlevel hlt
  have hin : grownFork.chainSrc.toNat < t.mainChain.headerChain.length := by
    rw [hlevel, hsrcFork]
    omega
  obtain ⟨srcHeader, hsrc⟩ : ∃ x, t.mainChain.headerChain[grownFork.chainSrc.toNat]? = some x :=
    ⟨_, List.getElem?_eq_getElem hin⟩
  obtain ⟨hkept, hjudged⟩ := hre srcHeader hsrc
  have hstart : Midway env t grownFork.chainSrc.toNat
      (t.mainChain.headerChain.drop (grownFork.chainSrc.toNat + 1)) t := by
    refine .start hhashed hpool fun x hx ↦ ?_
    obtain ⟨a, b, hb, -, -, hids⟩ := related_of_isChain hkept hx
    exact ⟨b, hb, hids⟩
  have hnone {u : ChainManager} (hu : Midway env t grownFork.chainSrc.toNat [] u) :
      Counted env cfg t grownFork.chainSrc.toNat 0 u :=
    ⟨[], hu, fun x hx ↦ by simp at hx, rfl⟩
  have hcounted {u : ChainManager} {n : ℕ} (hu : Counted env cfg t grownFork.chainSrc.toNat n u) :
      Even cfg u.mainChain.headerChain ∧
        u.mainChain.headerChain.length = grownFork.chainSrc.toNat + 1 + n ∧ u.forks = t.forks := by
    obtain ⟨done, hmid, hdone, rfl⟩ := hu
    refine ⟨fun x hx ↦ ?_, ?_, hmid.forks⟩
    · rw [hmid.chain, List.mem_append, hmain] at hx
      rcases hx with hx | hx
      · exact h.even x (List.mem_of_mem_take hx)
      · exact hdone x hx
    · rw [hmid.chain, List.length_append, List.length_take]
      omega
  have htail : (t.mainChain.headerChain.drop (grownFork.chainSrc.toNat + 1)).length =
      fork.headerChain.length := by
    rw [List.length_drop, hlevel, hsrcFork]
    omega
  have hold : ∀ f ∈ s.forks, f.totalDifficulty ≤ t.mainChain.totalDifficulty := by
    rw [hmain]
    exact fun f hf ↦ (h.forks f hf).2.2
  refine post_reorg
    (C := fun u ↦ Counted env cfg t grownFork.chainSrc.toNat 0 u ∧
      Judged env cfg (fun u b ↦ Attaches env u b.header ∧ Judgeable env b) grownFork.headerChain u)
    (W := Counted env cfg t grownFork.chainSrc.toNat grownFork.headerChain.length)
    (L := fun idx u ↦ idx < grownFork.headerChain.length ∧
      ∃ m, Counted env cfg t grownFork.chainSrc.toNat m u)
    (A := fun idx u ↦ idx < grownFork.headerChain.length ∧
      Counted env cfg t grownFork.chainSrc.toNat 0 u)
    (B := fun idx u ↦ idx < grownFork.headerChain.length ∧
      Counted env cfg t grownFork.chainSrc.toNat fork.headerChain.length u)
    hsrc ?_ ?_ ?_ ?_ ?_ ?_ fun _ _ w hq _ ↦ hq w
  · exact (hstart.cut hin).run.mono (fun _ u hu ↦ ⟨hnone hu.1, hjudged u hu.2⟩)
      fun _ _ he ↦ he.elim
  · exact fun u hu ↦ hu.1.appendFork (by rw [hsrcFork, hlenFork]; omega) hu.2
  · rintro idx u ⟨hidx, m, done, hmid, -⟩
    exact (hmid.cut hin).mono (fun _ w hw ↦ ⟨hidx, hnone hw⟩) fun _ _ he ↦ he.elim
  · rintro idx u ⟨hidx, hcount⟩
    have hback := hcount.reappendOld (E := fun _ u ↦ Weighed cfg u ∧
      s.mainChain.totalDifficulty ≤ u.mainChain.totalDifficulty) hsrc
      (by rw [htail, hsrcFork]; omega) hkept
    rw [htail] at hback
    exact hback.mono (fun _ w hw ↦ ⟨hidx, hw⟩) fun _ _ he ↦ he
  · rintro idx u trimmed w ⟨hidx, hcount⟩ htrim
    obtain ⟨hte, htsrc, htlen, httotal⟩ := trimFork_even heven' htotal' hidx.le htrim
    obtain ⟨hue, hlen, huforks⟩ := hcounted hcount
    refine ⟨⟨hue, ?_, fun f hf ↦ ?_⟩, ?_⟩
    · change t.mainChain.totalDifficulty = _ * u.mainChain.headerChain.length
      rw [hlen, hsrcFork, ← hlevel, hmain]
      exact h.total
    · change f ∈ u.forks.set k trimmed at hf
      rw [huforks, hforks, List.set_set] at hf
      change _ ∧ _ ∧ _ ≤ t.mainChain.totalDifficulty
      rcases List.mem_or_eq_of_mem_set hf with hf | rfl
      · exact ⟨(h.forks f hf).1, (h.forks f hf).2.1, hold f hf⟩
      · refine ⟨hte, by rw [httotal, htsrc, htlen], ?_⟩
        refine le_trans ?_ (hold fork ‹_›)
        rw [httotal, htotal]
        exact Nat.mul_le_mul_left _ (by rw [hsrcFork]; omega)
    · exact (congrArg MainChain.totalDifficulty hmain).ge
  · intro u w hcount
    obtain ⟨hue, hlen, huforks⟩ := hcounted hcount
    have hnew : t.mainChain.totalDifficulty ≤ grownFork.totalDifficulty := by
      rw [hmain]
      exact hheavier.le
    refine ⟨⟨hue, ?_, fun f hf ↦ ?_⟩, hheavier.le⟩
    · change grownFork.totalDifficulty = _ * u.mainChain.headerChain.length
      rw [hlen, htotal']
    · change f ∈ u.forks.eraseIdx k ++ [_] at hf
      change _ ∧ _ ∧ _ ≤ grownFork.totalDifficulty
      rw [huforks, hforks, List.eraseIdx_set_eq, List.mem_append, List.mem_singleton] at hf
      rcases hf with hf | rfl
      · have hmem := List.mem_of_mem_eraseIdx hf
        exact ⟨(h.forks f hmem).1, (h.forks f hmem).2.1, (hold f hmem).trans hnew⟩
      · refine ⟨fun x hx ↦ ?_, ?_, hnew⟩
        · change x ∈ t.mainChain.headerChain.drop _ at hx
          rw [hmain] at hx
          exact h.even x (List.mem_of_mem_drop hx)
        · change t.mainChain.totalDifficulty = cfg.difficulty.toNat * (grownFork.chainSrc.toNat + 1 +
            (t.mainChain.headerChain.drop (grownFork.chainSrc.toNat + 1)).length)
          rw [htail, hsrcFork, ← hlevel, hmain]
          exact h.total

end Weights

section Runs

/-- Blocks that are handed in come from the miner, and a received block that
makes a fork heavier than the main chain starts a reorg that comes through. -/
def Steady (env : Env) (cfg : Config) (s : ChainManager) : Event → Prop
  | .block block (some amounts) => Identified env.toSodium block ∧
      AllPriced env.toSodium (withAmounts block amounts) ∧
      (canAttach env s.mainChain.headerChain block.header = true →
        getDifficultyForHeight env cfg s.mainChain.headerChain
          (UInt32.ofNat s.mainChain.headerChain.length) = .ok block.header.difficulty)
  | .block block none => ∀ k fork, OffMain env s block none →
      findFork env block.header 0 s.forks = some (k, fork) →
      ForkTakes env cfg fork block.header →
      s.mainChain.totalDifficulty <
        (grown fork (link env fork.head block).header).totalDifficulty →
      Reorganizable env cfg (grown fork (link env fork.head block).header) (forked env s k fork block)
  | _ => True

instance (s : ChainManager) (event : Event) : Decidable (Steady env cfg s event) :=
  match event with
  | .block block (some amounts) => inferInstanceAs (Decidable (Identified env.toSodium block ∧
      AllPriced env.toSodium (withAmounts block amounts) ∧
      (canAttach env s.mainChain.headerChain block.header = true →
        getDifficultyForHeight env cfg s.mainChain.headerChain
          (UInt32.ofNat s.mainChain.headerChain.length) = .ok block.header.difficulty)))
  | .block block none => decidable_of_iff (∀ r ∈ findFork env block.header 0 s.forks,
      OffMain env s block none → ForkTakes env cfg r.2 block.header →
      s.mainChain.totalDifficulty < (grown r.2 (link env r.2.head block).header).totalDifficulty →
      Reorganizable env cfg (grown r.2 (link env r.2.head block).header)
        (forked env s r.1 r.2 block))
      ⟨fun h k fork hoff hfind ↦ h (k, fork) hfind hoff, fun h r hfind hoff ↦ h r.1 r.2 hoff hfind⟩
  | .tx _ => .isTrue trivial
  | .computation _ => .isTrue trivial

theorem Steady.mined {event : Event} (h : Steady env cfg s event) : Mined env cfg s event := by
  cases event with
  | block block mined =>
    cases mined with
    | none => trivial
    | some amounts => exact fun hattach ↦ ⟨_, h.2.2 hattach⟩
  | tx tx => trivial
  | computation comp => trivial

theorem Steady.paid {event : Event} (h : Steady env cfg s event) :
    Paid env.toSodium s event := by
  cases event with
  | block block mined =>
    cases mined with
    | none => trivial
    | some amounts => exact h.2.1
  | tx tx => trivial
  | computation comp => trivial

theorem post_append_weighed {mined : Option (List (List UInt64))} (h : Weighed cfg s)
    (hep : FirstEpoch cfg s) (hpool : Indexed env.toSodium s.memPool)
    (hsteady : Steady env cfg s (.block block mined)) :
    Post (appendBlock env cfg block mined) s
      (fun _ t ↦ Weighed cfg t ∧ s.mainChain.totalDifficulty ≤ t.mainChain.totalDifficulty)
      (fun _ t ↦ Weighed cfg t ∧ s.mainChain.totalDifficulty ≤ t.mainChain.totalDifficulty) := by
  have hv : ∀ amounts ∈ mined, Identified env.toSodium block ∧
      AllPriced env.toSodium (withAmounts block amounts) := by
    rintro amounts ⟨⟩
    exact ⟨hsteady.1, hsteady.2.1⟩
  refine post_append_indexed hpool hv ⟨h, le_rfl⟩ (fun _ _ ↦ ⟨h, le_rfl⟩)
    fun head txs cs pool hr _ _ ↦ ?_
  have hdiff : block.header.difficulty = cfg.difficulty := by
    cases mined with
    | none =>
      obtain ⟨cb, rest, cks, hvalid, -⟩ := validateBlock_some hr.checked
      exact (headerTaken_height hep.main_lt hvalid.header).2
    | some amounts =>
      have hd := hsteady.2.2 (by simp [canAttach, hr.head_eq, hr.attaches])
      exact ((getDifficultyForHeight_iff hep.main_lt).mp hd).2
  have hmore : s.mainChain.totalDifficulty ≤
      s.mainChain.totalDifficulty + block.header.difficulty.toNat := Nat.le_add_right _ _
  refine ⟨⟨h.even.append_singleton hdiff, ?_, fun f hf ↦ ?_⟩, hmore⟩
  · change s.mainChain.totalDifficulty + block.header.difficulty.toNat =
      cfg.difficulty.toNat * (s.mainChain.headerChain ++ [(link env head block).header]).length
    rw [hdiff, h.total, List.length_append, List.length_singleton]
    ring
  · obtain ⟨heven, htotal, hle⟩ := h.forks f hf
    exact ⟨heven, htotal, hle.trans hmore⟩

theorem post_handle_weighed (h : Weighed cfg s) (hep : FirstEpoch cfg s)
    (hpool : Indexed env.toSodium s.memPool) (hhashed : Hashed env s.blockStore) {event : Event}
    (hsteady : Steady env cfg s event) :
    Post (handle env cfg event) s
      (fun _ t ↦ Weighed cfg t ∧ s.mainChain.totalDifficulty ≤ t.mainChain.totalDifficulty)
      (fun _ t ↦ Weighed cfg t ∧ s.mainChain.totalDifficulty ≤ t.mainChain.totalDifficulty) := by
  have hsame {t : ChainManager} (ht : SameChains s t) :
      Weighed cfg t ∧ s.mainChain.totalDifficulty ≤ t.mainChain.totalDifficulty := by
    refine ⟨⟨?_, ?_, ?_⟩, ?_⟩
    · rw [ht.mainChain]
      exact h.even
    · rw [ht.mainChain]
      exact h.total
    · rw [ht.forks, ht.mainChain]
      exact h.forks
    · rw [ht.mainChain]
  cases event with
  | tx tx => exact (addTx_sameChains s tx).mono (fun _ _ ht ↦ hsame ht) fun _ _ ht ↦ hsame ht
  | computation comp =>
    exact (addComputation_sameChains s comp).mono (fun _ _ ht ↦ hsame ht) fun _ _ ht ↦ hsame ht
  | block block mined =>
    refine post_addBlock (Q := fun t ↦ Weighed cfg t ∧
        s.mainChain.totalDifficulty ≤ t.mainChain.totalDifficulty) ⟨h, le_rfl⟩ (fun _ _ _ ht ↦ ht)
      (fun _ ↦ (post_append_weighed h hep hpool hsteady).mono
        (fun _ _ ht _ ↦ ⟨⟨ht.1.even, ht.1.total, ht.1.forks⟩, ht.2⟩) fun _ _ ht ↦ ht)
      (fun k fork hoff hfind htakes ↦ ?_) fun i src total hoff hfind hatt htakes ↦ ?_
    · have hmem := List.mem_of_getElem? (findFork_some hfind).2.1
      obtain ⟨heven, htotal, hle⟩ := h.forks fork hmem
      have hshort := hep.forks fork hmem
      have hbpe := cfg.blocksPerEpoch.toNat_lt
      have hdiff := (headerTaken_height (by omega) htakes).2
      refine ⟨fun hnot ↦ ⟨⟨h.even, h.total, fun f hf ↦ ?_⟩, le_rfl⟩, fun hheavier ↦ ?_⟩
      · rcases List.mem_or_eq_of_mem_set hf with hf | rfl
        · exact h.forks f hf
        · refine ⟨heven.append_singleton hdiff, ?_, hnot⟩
          change fork.totalDifficulty + block.header.difficulty.toNat = cfg.difficulty.toNat *
            (fork.chainSrc.toNat + 1 + (fork.headerChain ++ [(link env fork.head block).header]).length)
          rw [hdiff, htotal, List.length_append, List.length_singleton]
          ring
      · have hm : mined = none := hoff.1
        subst hm
        have hlevel := h.level hmem hdiff hheavier
        have hgrown := grown_lt (by omega) (by omega) htakes (link env fork.head block).header
        simp only [grown, List.length_append, List.length_singleton] at hgrown
        exact post_reorg_weighed h hmem hdiff hheavier (by omega) rfl rfl hpool
          (hhashed.storeBlock (link env fork.head block)) (hsteady k fork hoff hfind htakes hheavier)
    · obtain ⟨-, hget, hprev⟩ := findAttachment_some hatt
      obtain ⟨hi, -⟩ := List.getElem?_eq_some_iff.mp hget
      have hdiff := (headerTaken_height (by simp [newFork]) htakes).2
      have hbelow : i + 2 ≤ s.mainChain.headerChain.length := by
        by_contra hnot
        have hlast : s.mainChain.headerChain.getLast? = some src := by
          rw [List.getLast?_eq_getElem?, ← hget]
          congr 1
          omega
        have hattach : canAttach env s.mainChain.headerChain block.header = true := by
          simp [canAttach, hlast, hprev]
        exact absurd (hattach.symm.trans hoff.2) (by simp)
      have hsum := findAttachment_total hatt
      rw [totalOf_even fun x hx ↦ h.even x (List.mem_of_mem_take hx), List.length_take,
        Nat.zero_add] at hsum
      have hmain := hep.main_lt
      refine ⟨⟨h.even, h.total, fun f hf ↦ ?_⟩, le_rfl⟩
      rcases List.mem_append.mp hf with hf | hf
      · exact h.forks f hf
      · rw [List.mem_singleton.mp hf]
        have htotal : (grown (newFork i src total) (link env src block).header).totalDifficulty =
            cfg.difficulty.toNat * (i + 2) := by
          change total + block.header.difficulty.toNat = _
          rw [hdiff, hsum, Nat.min_eq_left (by omega), Nat.sub_zero]
          ring
        refine ⟨Even.append_singleton (fun x hx ↦ by simp [newFork] at hx) hdiff, ?_, ?_⟩
        · rw [htotal]
          congr 1
          change i + 2 = (UInt32.ofNat i).toNat + 1 + 1
          rw [UInt32.toNat_ofNat', Nat.mod_eq_of_lt (by omega)]
        · rw [htotal]
          change _ ≤ s.mainChain.totalDifficulty
          rw [h.total]
          exact Nat.mul_le_mul_left _ hbelow

theorem genesis_difficulty {genesis : Block}
    (h : Block.genesis env.toSodium cfg.timestamp cfg.difficulty cfg.publicKey cfg.reward =
      .ok genesis) : genesis.header.difficulty = cfg.difficulty := by
  rw [Block.genesis, bind_eq_ok] at h
  obtain ⟨txids, -, he⟩ := h
  obtain rfl := Except.ok.inj he
  rfl

theorem weighed_start {wallet : Store.Coins.Wallet} (hs : create env cfg wallet = .ok s) :
    Weighed cfg s := by
  obtain ⟨genesis, hgen, rfl⟩ := create_ok hs
  have hdiff := genesis_difficulty hgen
  refine ⟨fun x hx ↦ ?_, ?_, fun f hf ↦ ?_⟩
  · rw [List.mem_singleton.mp hx, hdiff]
  · simp [started, hdiff]
  · simp [started] at hf

end Runs

section Sample

/-- A branch of two blocks, the first of which validation throws on. -/
def unbalancing : List Event :=
  let a := arriving sampleGenesis 1
  let b₁ := unhashable sampleGenesis 2
  let b₂ := arriving b₁ 3
  [a, b₁, b₂].map (.block · none)

end Sample

end FheBlockchain.Chain.Heaviest
