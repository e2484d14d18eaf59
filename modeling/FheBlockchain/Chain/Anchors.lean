import FheBlockchain.Chain.Difficulty
import FheBlockchain.Chain.Judging

namespace FheBlockchain.Chain.Anchors

open Core.Transactions Core.Blocks Store.Pools Store.PoolFacts Validation ValidationFacts Manager
open AppendFacts Accepted Exceptions Ledgers ReorgFacts Placement PoolHistory Replay Node
open Difficulty Judging
open Store.Chainstate hiding M addBlock
open Library.Execution

variable {env : Env} {cfg : Config} {s t : ChainManager} {block : Block} {fork : Fork}

section Anchors

def Names (env : Env) (a b : BlockHeader) : Prop := b.prevHash = a.hash env.toSodium

/-- A fork that leads on from the header of the chain at its branch point. -/
structure Anchored (env : Env) (chain : List BlockHeader) (fork : Fork) : Prop where
  source : chain[fork.chainSrc.toNat]? = some fork.chainSrcHeader
  names : (fork.chainSrcHeader :: fork.headerChain).IsChain (Names env)

def Kept (env : Env) (store : MemBlockStore) (header : BlockHeader) : Prop :=
  header.prevBlockHeader.isSome ∧
    ∃ b, store.lookup (header.hash env.toSodium) = some b ∧ b.header = header

/-- All forks are anchored in the main chain, and the headers of all chains are
those of stored blocks. -/
structure Rooted (env : Env) (s : ChainManager) : Prop where
  names : s.mainChain.headerChain.IsChain (Names env)
  has : ∀ h ∈ s.mainChain.headerChain, Has env s.blockStore h
  tail : ∀ h ∈ s.mainChain.headerChain.tail, Kept env s.blockStore h
  forks : ∀ f ∈ s.forks, Anchored env s.mainChain.headerChain f ∧
    ∀ h ∈ f.headerChain, Kept env s.blockStore h

variable {store store' : MemBlockStore} {header : BlockHeader}

theorem Kept.mono (h : Kept env store header) (hg : Grows store store') :
    Kept env store' header := by
  obtain ⟨hlink, b, hb, he⟩ := h
  exact ⟨hlink, b, hg _ _ hb, he⟩

theorem Kept.has (h : Kept env store header) : Has env store header := by
  obtain ⟨-, b, hb, -⟩ := h
  rw [Has, hb]
  rfl

theorem kept_storeBlock (head : BlockHeader) (block : Block)
    (hsame : ∀ old ∈ store.lookup (block.hash env.toSodium), old.header = (link env head block).header) :
    Kept env (store.storeBlock (block.hash env.toSodium) (link env head block)).1
      (link env head block).header := by
  have hhash : (link env head block).header.hash env.toSodium = block.hash env.toSodium := rfl
  refine ⟨rfl, ?_⟩
  rw [hhash, storeBlock_lookup, if_pos rfl]
  cases hold : store.lookup (block.hash env.toSodium) with
  | none => exact ⟨_, rfl, rfl⟩
  | some old => exact ⟨old, rfl, hsame old hold⟩

theorem related_next {α : Type} {R : α → α → Prop} {a x : α} {done rest : List α}
    (h : (a :: (done ++ x :: rest)).IsChain R) : R (done.getLastD a) x := by
  induction done generalizing a with
  | nil => exact (List.isChain_cons_cons.mp h).1
  | cons y done ih =>
    rw [List.getLastD_cons]
    exact ih (List.isChain_cons_cons.mp h).2

theorem Anchored.snoc {chain : List BlockHeader} (h : Anchored env chain fork)
    (hnames : Names env fork.head header) : Anchored env chain (grown fork header) := by
  refine ⟨h.source, ?_⟩
  change (fork.chainSrcHeader :: (fork.headerChain ++ [header])).IsChain (Names env)
  rw [← List.cons_append, List.isChain_append]
  refine ⟨h.names, by simp, fun a ha b hb ↦ ?_⟩
  simp only [List.head?_cons, Option.mem_some_iff] at hb
  rw [List.getLast?_cons, Option.mem_some_iff] at ha
  rw [← hb, ← ha, ← List.getLastD_eq_getLast?]
  exact hnames

end Anchors

section Reorgs

variable {src : ℕ} {done rest headers : List BlockHeader} {srcHeader x : BlockHeader}
variable {E : Exception → ChainManager → Prop}

theorem append_kept (h : Midway env s src done t)
    (hsrc : s.mainChain.headerChain[src]? = some srcHeader) (hkept : Kept env s.blockStore x)
    (hnames : Names env (done.getLastD srcHeader) x)
    (hb : t.blockStore.lookup (x.hash env.toSodium) = some block) (hj : Judgeable env block) :
    Post (appendBlock env cfg block none) t
      (fun r u ↦ if r then Midway env s src (done ++ [x]) u else u = t) (fun _ _ ↦ False) := by
  obtain ⟨hlink, b, hb', rfl⟩ := hkept
  obtain rfl : b = block := Option.some.inj ((h.grows _ _ hb').symm.trans hb)
  have hlast := h.getLast hsrc
  refine (h.append hb ⟨_, hlast, hnames⟩ hj).mono (fun r u hu ↦ ?_) fun _ _ he ↦ he
  cases r with
  | false => exact hu
  | true =>
    obtain ⟨head, txs, hr, -, hmid⟩ := hu
    rwa [link_eq hlink hr.attaches] at hmid

theorem post_appendFork_kept (h : Midway env s src [] t)
    (hsrc : s.mainChain.headerChain[src]? = some srcHeader)
    (hkept : ∀ x ∈ headers, Kept env s.blockStore x)
    (hnames : (srcHeader :: headers).IsChain (Names env))
    (hj : Judged env cfg (fun _ b ↦ Judgeable env b) headers t) :
    Post (appendFork env cfg 0 headers) t
      (fun r u ↦ r.elim (Midway env s src headers u) fun _ ↦ ∃ done, Midway env s src done u) E := by
  refine (post_appendFork
    (I := fun rest u ↦ ∃ done, headers = done ++ rest ∧ Midway env s src done u ∧
      Judged env cfg (fun _ b ↦ Judgeable env b) rest u)
    (J := fun _ u ↦ ∃ done, Midway env s src done u)
    (fun x rest u hu ↦ ?_) 0 ⟨[], rfl, h, hj⟩).mono (fun r u hu ↦ ?_) fun _ _ he ↦ he
  · obtain ⟨done, rfl, hmid, b, hb, hjudge, hrest⟩ := hu
    refine ⟨b, hb, (append_kept hmid hsrc (hkept x (by simp)) (related_next hnames) hb hjudge).run.mono
      ?_ fun _ _ he ↦ he.elim⟩
    rintro r w ⟨hw, hrun⟩
    cases r with
    | false =>
      rw [show w = u from hw]
      exact ⟨done, hmid⟩
    | true => exact ⟨done ++ [x], by simp, hw, hrest w hrun⟩
  · cases r with
    | none =>
      obtain ⟨done, he, hmid, -⟩ := hu
      rw [List.append_nil] at he
      rwa [he]
    | some idx =>
      obtain ⟨-, -, -, -, -, hmid⟩ := hu
      exact hmid

theorem post_reappendOld_kept (h : Midway env s src [] t)
    (hsrc : s.mainChain.headerChain[src]? = some srcHeader)
    (hkept : ∀ x ∈ headers, Kept env s.blockStore x)
    (hnames : (srcHeader :: headers).IsChain (Names env))
    (hj : ∀ x ∈ headers, ∀ b ∈ s.blockStore.lookup (x.hash env.toSodium), Judgeable env b) :
    Post (reappendOld env cfg headers) t (fun _ u ↦ Midway env s src headers u) E := by
  refine (post_reappendOld
    (I := fun rest u ↦ ∃ done, headers = done ++ rest ∧ Midway env s src done u)
    (fun x rest u hu ↦ ?_) ⟨[], rfl, h⟩).mono (fun _ u hu ↦ ?_) fun _ _ he ↦ he
  · obtain ⟨done, rfl, hmid⟩ := hu
    have hx := hkept x (by simp)
    obtain ⟨b, hb, -⟩ := hx.2
    refine ⟨b, hmid.grows _ _ hb, (append_kept hmid hsrc hx (related_next hnames)
      (hmid.grows _ _ hb) (hj x (by simp) b hb)).mono ?_ fun _ _ he ↦ he.elim⟩
    rintro r w hw rfl
    exact ⟨done ++ [x], by simp, hw⟩
  · obtain ⟨done, he, hmid⟩ := hu
    rw [List.append_nil] at he
    rwa [he]

def reorganized (chain : List BlockHeader) (fork : Fork) : List BlockHeader :=
  chain.take (fork.chainSrc.toNat + 1) ++ fork.headerChain

/-- The main chain can be taken off down to the branch point of the fork and put
back, validation comes to a verdict on the blocks of the fork, in turn up to the
first one that is refused, and if none is, the other forks branch off at headers
that stay where they are. -/
def Undisturbed (env : Env) (cfg : Config) (k : ℕ) (fork : Fork) (s : ChainManager) : Prop :=
  (∀ h ∈ s.mainChain.headerChain.drop (fork.chainSrc.toNat + 1),
    ∀ b ∈ s.blockStore.lookup (h.hash env.toSodium), Judgeable env b ∧ Identified env.toSodium b) ∧
  ∀ t, rewindHeaders env (s.mainChain.headerChain.drop (fork.chainSrc.toNat + 1)).reverse s =
      .ok () t →
    Judged env cfg (fun _ b ↦ Judgeable env b) fork.headerChain
      (truncated (fork.chainSrc.toNat + 1) t) ∧
    ∀ u, appendFork env cfg 0 fork.headerChain (truncated (fork.chainSrc.toNat + 1) t) =
        .ok none u →
      ∀ g ∈ s.forks.eraseIdx k,
        (reorganized s.mainChain.headerChain fork)[g.chainSrc.toNat]? = some g.chainSrcHeader

theorem Rooted.congr (h : Rooted env s)
    (hchain : t.mainChain.headerChain = s.mainChain.headerChain)
    (hstore : t.blockStore = s.blockStore) (hforks : t.forks = s.forks) : Rooted env t := by
  refine ⟨?_, ?_, ?_, ?_⟩
  · rw [hchain]
    exact h.names
  · rw [hchain, hstore]
    exact h.has
  · rw [hchain, hstore]
    exact h.tail
  · rw [hchain, hstore, hforks]
    exact h.forks

theorem getElem?_drop_cons {α : Type} {l : List α} {i : ℕ} {a : α} (h : l[i]? = some a) :
    l.drop i = a :: l.drop (i + 1) := by
  obtain ⟨hi, he⟩ := List.getElem?_eq_some_iff.mp h
  rw [← he]
  exact List.drop_eq_getElem_cons hi

theorem rooted_of_midway {u : ChainManager} (h : Rooted env s) (hmid : Midway env s src done t)
    (hsrc : s.mainChain.headerChain[src]? = some srcHeader)
    (hkept : ∀ x ∈ done, Kept env s.blockStore x)
    (hnames : (srcHeader :: done).IsChain (Names env))
    (hchain : u.mainChain.headerChain = t.mainChain.headerChain) (hstore : u.blockStore = t.blockStore)
    (hforks : ∀ f ∈ u.forks, Anchored env t.mainChain.headerChain f ∧
      ∀ x ∈ f.headerChain, Kept env s.blockStore x) : Rooted env u := by
  have hin := (List.getElem?_eq_some_iff.mp hsrc).1
  have hbase : s.mainChain.headerChain.take (src + 1) =
      s.mainChain.headerChain.take src ++ [srcHeader] := by
    rw [List.take_add_one, hsrc]
    rfl
  have hgrow : ∀ x ∈ done, Kept env t.blockStore x := fun x hx ↦ (hkept x hx).mono hmid.grows
  refine ⟨?_, fun x hx ↦ ?_, fun x hx ↦ ?_, fun f hf ↦ ⟨?_, fun x hx ↦ ?_⟩⟩
  · rw [hchain, hmid.chain, hbase, List.append_assoc, List.singleton_append]
    refine List.isChain_split.mpr ⟨?_, hnames⟩
    rw [← hbase]
    exact h.names.take _
  · rw [hchain, hmid.chain, List.mem_append] at hx
    rw [hstore]
    rcases hx with hx | hx
    · exact hmid.grows.isSome (h.has x (List.mem_of_mem_take hx))
    · exact (hgrow x hx).has
  · rw [hchain, hmid.chain, List.tail_append_of_ne_nil (by simp [hbase]), List.mem_append] at hx
    rw [hstore]
    rcases hx with hx | hx
    · rw [List.tail_take_eq_take_tail] at hx
      exact (h.tail x (List.mem_of_mem_take hx)).mono hmid.grows
    · exact hgrow x hx
  · rw [hchain]
    exact (hforks f hf).1
  · rw [hstore]
    exact ((hforks f hf).2 x hx).mono hmid.grows

theorem post_reorg_rooted {k : ℕ} (h : Rooted env s) (hfork : fork ∈ s.forks)
    (hpool : Indexed env.toSodium s.memPool) (hhashed : Hashed env s.blockStore)
    (hquiet : Undisturbed env cfg k fork s) :
    Post (reorg env cfg k fork) s (fun _ ↦ Rooted env) (fun e t ↦ e ≠ cannotAttach ∧ Rooted env t) := by
  obtain ⟨⟨hsrc, hnames⟩, hkept⟩ := h.forks fork hfork
  obtain ⟨htail, hquiet⟩ := hquiet
  have hin := (List.getElem?_eq_some_iff.mp hsrc).1
  set src := fork.chainSrc.toNat with hsrcDef
  have hkeptTail : ∀ x ∈ s.mainChain.headerChain.drop (src + 1), Kept env s.blockStore x := by
    intro x hx
    rw [← List.drop_tail] at hx
    exact h.tail x (List.mem_of_mem_drop hx)
  have hnamesTail : (fork.chainSrcHeader :: s.mainChain.headerChain.drop (src + 1)).IsChain
      (Names env) := by
    rw [← getElem?_drop_cons hsrc]
    exact h.names.drop _
  have hstart : Midway env s src (s.mainChain.headerChain.drop (src + 1)) s := by
    refine .start hhashed hpool fun x hx ↦ ?_
    obtain ⟨-, b, hb, -⟩ := hkeptTail x hx
    exact ⟨b, hb, (htail x hx b hb).2⟩
  refine post_reorg
    (C := fun u ↦ Midway env s src [] u ∧
      Judged env cfg (fun _ b ↦ Judgeable env b) fork.headerChain u ∧
      ∀ w, appendFork env cfg 0 fork.headerChain u = .ok none w → ∀ g ∈ s.forks.eraseIdx k,
        (reorganized s.mainChain.headerChain fork)[g.chainSrc.toNat]? = some g.chainSrcHeader)
    (W := fun u ↦ Midway env s src fork.headerChain u ∧ ∀ g ∈ s.forks.eraseIdx k,
      (reorganized s.mainChain.headerChain fork)[g.chainSrc.toNat]? = some g.chainSrcHeader)
    (L := fun _ u ↦ ∃ done, Midway env s src done u) (A := fun _ ↦ Midway env s src [])
    (B := fun _ ↦ Midway env s src (s.mainChain.headerChain.drop (src + 1)))
    hsrc ?_ ?_ ?_ ?_ ?_ ?_ ?_
  · refine (hstart.cut hin).run.mono (fun _ u hu ↦ ?_) fun _ _ he ↦ he.elim
    obtain ⟨hj, hanchors⟩ := hquiet u hu.2
    exact ⟨hu.1, hj, hanchors⟩
  · rintro u ⟨hmid, hj, hanchors⟩
    refine (post_appendFork_kept hmid hsrc hkept hnames hj).run.mono (fun r w hw ↦ ?_)
      fun _ _ he ↦ he
    cases r with
    | none => exact ⟨hw.1, hanchors w hw.2⟩
    | some idx => exact hw.1
  · rintro idx u ⟨done, hmid⟩
    exact (hmid.cut hin).mono (fun _ _ hw ↦ hw) fun _ _ he ↦ he.elim
  · exact fun _ t ht ↦ post_reappendOld_kept ht hsrc hkeptTail hnamesTail
      fun x hx b hb ↦ (htail x hx b hb).1
  · intro idx u trimmed w hmid htrim
    obtain ⟨-, rfl⟩ := trimFork_ok htrim
    have hsame : u.mainChain.headerChain = s.mainChain.headerChain := by
      rw [hmid.chain, List.take_append_drop]
    refine rooted_of_midway h hmid hsrc hkeptTail hnamesTail rfl rfl fun f hf ↦ ?_
    change f ∈ u.forks.set k _ at hf
    rw [hmid.forks] at hf
    rw [hsame]
    rcases List.mem_or_eq_of_mem_set hf with hf | rfl
    · exact h.forks f hf
    · refine ⟨⟨hsrc, ?_⟩, fun x hx ↦ hkept x (List.mem_of_mem_take hx)⟩
      have htake := hnames.take (idx + 1)
      rwa [List.take_succ_cons] at htake
  · rintro u w ⟨hmid, hanchors⟩
    refine rooted_of_midway h hmid hsrc hkept hnames rfl rfl fun f hf ↦ ?_
    change f ∈ u.forks.eraseIdx k ++ [_] at hf
    rw [hmid.forks, List.mem_append, List.mem_singleton] at hf
    rw [hmid.chain]
    rcases hf with hf | rfl
    · obtain ⟨hanch, hk⟩ := h.forks f (List.mem_of_mem_eraseIdx hf)
      exact ⟨⟨hanchors f hf, hanch.names⟩, hk⟩
    · refine ⟨⟨?_, hnamesTail⟩, hkeptTail⟩
      change (_ ++ _)[src]? = some fork.chainSrcHeader
      rw [List.getElem?_append_left (by rw [List.length_take]; omega), List.getElem?_take,
        if_pos (by omega), hsrc]
  · intro e u w hq he
    have hu := hq u.wallet
    have hscan := rescan_raised env u.mainChain.headerChain u.blockStore u.wallet hu.has
    rw [Post, he] at hscan
    refine ⟨?_, hq w⟩
    rintro rfl
    exact cannotAttach_not_raised hscan

/-- A main chain in the middle of a reorg from `s`, whatever its blocks are. -/
structure Partway (env : Env) (s : ChainManager) (src : ℕ) (done : List BlockHeader)
    (t : ChainManager) : Prop where
  chain : t.mainChain.headerChain = s.mainChain.headerChain.take (src + 1) ++ done
  grows : Grows s.blockStore t.blockStore
  has : ∀ x ∈ done, Has env s.blockStore x

theorem Partway.cut (h : Partway env s src done t) (hsrc : src < s.mainChain.headerChain.length) :
    Post (rewindHeaders env (t.mainChain.headerChain.drop (src + 1)).reverse) t
      (fun _ u ↦ Partway env s src [] (truncated (src + 1) u)) fun e _ ↦ Raised e := by
  have hlen : (s.mainChain.headerChain.take (src + 1)).length = src + 1 := by
    rw [List.length_take]
    omega
  have htail : t.mainChain.headerChain.drop (src + 1) = done := by
    rw [h.chain, List.drop_left' hlen]
  rw [htail]
  refine (rewindHeaders_raised _ t fun x hx ↦ ?_).mono (fun _ u hu ↦ ?_) fun _ _ he ↦ he.1
  · exact h.grows.isSome (h.has x (List.mem_reverse.mp hx))
  · rw [hu]
    refine ⟨?_, h.grows, by simp⟩
    rw [List.append_nil]
    change t.mainChain.headerChain.take (src + 1) = _
    rw [h.chain, List.take_left' hlen]

/-- The block of a kept header that names the tip attaches to it, and if it fails
the exception is another one. -/
theorem Partway.append (h : Partway env s src done t)
    (hsrc : s.mainChain.headerChain[src]? = some srcHeader) (hkept : Kept env s.blockStore x)
    (hnames : Names env (done.getLastD srcHeader) x)
    (hb : t.blockStore.lookup (x.hash env.toSodium) = some block) :
    Post (appendBlock env cfg block none) t
      (fun r u ↦ if r then Partway env s src (done ++ [x]) u else u = t) fun e _ ↦ Raised e := by
  have hhas := hkept.has
  obtain ⟨hlink, b, hb', rfl⟩ := hkept
  obtain rfl : b = block := Option.some.inj ((h.grows _ _ hb').symm.trans hb)
  have hlast : t.mainChain.headerChain.getLast? = some (done.getLastD srcHeader) := by
    rw [h.chain, getLast?_take_append hsrc]
  refine post_append_identified (by simp) rfl (fun e he ↦ ?_) fun head txs cs pool hr ↦ ?_
  · rcases raised_of_refused he with he | ⟨-, head, hhead, hne⟩
    · exact he
    · obtain rfl := Option.some.inj (hlast.symm.trans hhead)
      exact absurd hnames hne
  · refine ⟨?_, fun _ he ↦ he⟩
    rw [if_pos rfl, link_eq hlink hr.attaches]
    have hgrow := grows_storeBlock t.blockStore (b.hash env.toSodium) b
    refine ⟨?_, fun k old hold ↦ hgrow k old (h.grows k old hold), fun y hy ↦ ?_⟩
    · rw [← List.append_assoc, ← h.chain]
      rfl
    · rcases List.mem_append.mp hy with hy | hy
      · exact h.has y hy
      · rw [List.mem_singleton.mp hy]
        exact hhas

theorem post_reorg_attaches {k : ℕ} (h : Rooted env s) (hfork : fork ∈ s.forks) :
    Post (reorg env cfg k fork) s (fun _ _ ↦ True) fun e _ ↦ Raised e := by
  obtain ⟨⟨hsrc, hnames⟩, hkept⟩ := h.forks fork hfork
  have hin := (List.getElem?_eq_some_iff.mp hsrc).1
  set src := fork.chainSrc.toNat with hsrcDef
  have hkeptTail : ∀ x ∈ s.mainChain.headerChain.drop (src + 1), Kept env s.blockStore x := by
    intro x hx
    rw [← List.drop_tail] at hx
    exact h.tail x (List.mem_of_mem_drop hx)
  have hnamesTail : (fork.chainSrcHeader :: s.mainChain.headerChain.drop (src + 1)).IsChain
      (Names env) := by
    rw [← getElem?_drop_cons hsrc]
    exact h.names.drop _
  have hstart : Partway env s src (s.mainChain.headerChain.drop (src + 1)) s :=
    ⟨(List.take_append_drop _ _).symm, fun _ _ h ↦ h, fun x hx ↦ (hkeptTail x hx).has⟩
  -- one more of the headers that the fork or the old tail has
  have hnext {headers done rest : List BlockHeader} {x : BlockHeader} {u : ChainManager}
      (hheaders : ∀ x ∈ headers, Kept env s.blockStore x)
      (hchain : (fork.chainSrcHeader :: headers).IsChain (Names env))
      (he : headers = done ++ x :: rest) (hu : Partway env s src done u) : ∃ b,
        u.blockStore.lookup (x.hash env.toSodium) = some b ∧
        Post (appendBlock env cfg b none) u
          (fun r w ↦ if r then Partway env s src (done ++ [x]) w else w = u) fun e _ ↦ Raised e := by
    have hx := hheaders x (by simp [he])
    obtain ⟨b, hb, -⟩ := hx.2
    have hb' := hu.grows _ _ hb
    exact ⟨b, hb', hu.append hsrc hx (related_next (he ▸ hchain)) hb'⟩
  have hhas {done : List BlockHeader} {u : ChainManager} (hu : Partway env s src done u) :
      ∀ x ∈ u.mainChain.headerChain, Has env u.blockStore x := by
    intro x hx
    rw [hu.chain, List.mem_append] at hx
    rcases hx with hx | hx
    · exact hu.grows.isSome (h.has x (List.mem_of_mem_take hx))
    · exact hu.grows.isSome (hu.has x hx)
  refine (post_reorg (C := Partway env s src []) (W := fun u ↦ ∃ done, Partway env s src done u)
    (L := fun _ u ↦ ∃ done, Partway env s src done u) (A := fun _ ↦ Partway env s src [])
    (B := fun _ u ↦ ∃ done, Partway env s src done u)
    (Q := fun u ↦ ∀ x ∈ u.mainChain.headerChain, Has env u.blockStore x)
    hsrc (hstart.cut hin) (fun u hu ↦ ?_) ?_ (fun _ u hu ↦ ?_) ?_ ?_ ?_).mono
      (fun _ _ _ ↦ trivial) fun _ _ he ↦ he
  · refine (post_appendFork
      (I := fun rest u ↦ ∃ done, fork.headerChain = done ++ rest ∧ Partway env s src done u)
      (J := fun _ u ↦ ∃ done, Partway env s src done u)
      (fun x rest u hu ↦ ?_) 0 ⟨[], rfl, hu⟩).mono (fun r u hu ↦ ?_) fun _ _ he ↦ he
    · obtain ⟨done, he, hu⟩ := hu
      obtain ⟨b, hb, hpost⟩ := hnext hkept hnames he hu
      refine ⟨b, hb, hpost.mono (fun r w hw ↦ ?_) fun _ _ he ↦ he⟩
      cases r with
      | false =>
        rw [show w = u from hw]
        exact ⟨done, hu⟩
      | true => exact ⟨done ++ [x], by simp [he], hw⟩
    · cases r with
      | none =>
        obtain ⟨done, -, hu⟩ := hu
        exact ⟨done, hu⟩
      | some idx =>
        obtain ⟨-, -, -, -, -, hu⟩ := hu
        exact hu
  · rintro idx u ⟨done, hu⟩
    exact hu.cut hin
  · refine (post_reappendOld
      (I := fun rest u ↦ ∃ done, s.mainChain.headerChain.drop (src + 1) = done ++ rest ∧
        Partway env s src done u)
      (fun x rest u hu ↦ ?_) ⟨[], rfl, hu⟩).mono (fun _ u hu ↦ ?_) fun _ _ he ↦ he
    · obtain ⟨done, he, hu⟩ := hu
      obtain ⟨b, hb, hpost⟩ := hnext hkeptTail hnamesTail he hu
      refine ⟨b, hb, hpost.mono ?_ fun _ _ he ↦ he⟩
      rintro r w hw rfl
      exact ⟨done ++ [x], by simp [he], hw⟩
    · obtain ⟨done, -, hu⟩ := hu
      exact ⟨done, hu⟩
  · rintro idx u trimmed w ⟨done, hu⟩ -
    exact fun x hx ↦ hhas hu x hx
  · rintro u w ⟨done, hu⟩
    exact fun x hx ↦ hhas hu x hx
  · intro e u w hq he
    have hscan := rescan_raised env u.mainChain.headerChain u.blockStore u.wallet (hq u.wallet)
    rwa [Post, he] at hscan

end Reorgs

section Runs

/-- Blocks that are handed in come from the miner, no block that is taken in
shares its hash with another header, and no reorg disturbs the other forks. -/
def Quiet (env : Env) (cfg : Config) (s : ChainManager) : Event → Prop
  | .block block mined =>
    (∀ amounts ∈ mined, Identified env.toSodium block ∧
      AllPriced env.toSodium (withAmounts block amounts) ∧
      Mined env cfg s (.block block (some amounts))) ∧
    (∀ head, Placed env cfg s block mined head →
      ∀ old ∈ s.blockStore.lookup (block.hash env.toSodium),
        old.header = (link env head block).header) ∧
    ∀ k fork, OffMain env s block mined →
      findFork env block.header 0 s.forks = some (k, fork) →
      ForkTakes env cfg fork block.header →
      s.mainChain.totalDifficulty <
        (grown fork (link env fork.head block).header).totalDifficulty →
      Undisturbed env cfg k (grown fork (link env fork.head block).header)
        (forked env s k fork block)
  | _ => True

theorem Quiet.mined {event : Event} (h : Quiet env cfg s event) : Mined env cfg s event := by
  cases event with
  | block block mined =>
    cases mined with
    | none => trivial
    | some amounts => exact (h.1 amounts rfl).2.2
  | tx tx => trivial
  | computation comp => trivial

theorem Quiet.paid {event : Event} (h : Quiet env cfg s event) : Paid env.toSodium s event := by
  cases event with
  | block block mined =>
    cases mined with
    | none => trivial
    | some amounts => exact (h.1 amounts rfl).2.1
  | tx tx => trivial
  | computation comp => trivial

theorem Rooted.stored (h : Rooted env s) (head : BlockHeader) (block : Block) :
    Rooted env (withStored env s (link env head block)) := by
  have hgrow := grows_storeBlock s.blockStore (block.hash env.toSodium) (link env head block)
  exact ⟨h.names, fun x hx ↦ hgrow.isSome (h.has x hx), fun x hx ↦ (h.tail x hx).mono hgrow,
    fun f hf ↦ ⟨(h.forks f hf).1, fun x hx ↦ ((h.forks f hf).2 x hx).mono hgrow⟩⟩

theorem Rooted.withForks (h : Rooted env s) {forks : List Fork}
    (hforks : ∀ f ∈ forks, Anchored env s.mainChain.headerChain f ∧
      ∀ x ∈ f.headerChain, Kept env s.blockStore x) : Rooted env { s with forks := forks } :=
  ⟨h.names, h.has, h.tail, hforks⟩

theorem Rooted.extend {mined : Option (List (List UInt64))} {head : BlockHeader}
    {txs : List PooledTx} (h : Rooted env s) (hr : Ready env cfg s block mined head txs)
    (hsame : ∀ old ∈ s.blockStore.lookup (block.hash env.toSodium),
      old.header = (link env head block).header) (cs : MemChainstate) (pool : MemPool) :
    Rooted env (extended env s (link env head block) cs pool) := by
  have hgrow := grows_storeBlock s.blockStore (block.hash env.toSodium) (link env head block)
  have hnew := kept_storeBlock head block hsame
  refine ⟨?_, fun x hx ↦ ?_, fun x hx ↦ ?_, fun f hf ↦ ⟨⟨?_, (h.forks f hf).1.names⟩,
    fun x hx ↦ ((h.forks f hf).2 x hx).mono hgrow⟩⟩
  · refine List.isChain_append.mpr ⟨h.names, by simp, fun a ha b hb ↦ ?_⟩
    rw [hr.head_eq, Option.mem_some_iff] at ha
    simp only [List.head?_cons, Option.mem_some_iff] at hb
    rw [← ha, ← hb]
    rfl
  · rcases List.mem_append.mp hx with hx | hx
    · exact hgrow.isSome (h.has x hx)
    · rw [List.mem_singleton.mp hx]
      exact hnew.has
  · have hne : s.mainChain.headerChain ≠ [] := by
      rintro hnil
      have := hr.head_eq
      simp [hnil] at this
    change x ∈ (s.mainChain.headerChain ++ _).tail at hx
    rw [List.tail_append_of_ne_nil hne] at hx
    rcases List.mem_append.mp hx with hx | hx
    · exact (h.tail x hx).mono hgrow
    · rw [List.mem_singleton.mp hx]
      exact hnew
  · have hsource := (h.forks f hf).1.source
    change (s.mainChain.headerChain ++ _)[f.chainSrc.toNat]? = _
    rw [List.getElem?_append_left (List.getElem?_eq_some_iff.mp hsource).1, hsource]

theorem post_handle_rooted (h : Rooted env s) (hep : FirstEpoch cfg s)
    (hpool : Indexed env.toSodium s.memPool) (hhashed : Hashed env s.blockStore) {event : Event}
    (hquiet : Quiet env cfg s event) :
    Post (handle env cfg event) s (fun _ ↦ Rooted env)
      (fun e t ↦ (∀ block, event = .block block none → e ≠ cannotAttach) ∧ Rooted env t) := by
  have hsame {t : ChainManager} (ht : SameChains s t) : Rooted env t :=
    h.congr (by rw [ht.mainChain]) ht.blockStore ht.forks
  cases event with
  | tx tx =>
    exact (addTx_sameChains s tx).mono (fun _ _ ht ↦ hsame ht) fun _ _ ht ↦ ⟨by simp, hsame ht⟩
  | computation comp =>
    exact (addComputation_sameChains s comp).mono (fun _ _ ht ↦ hsame ht)
      fun _ _ ht ↦ ⟨by simp, hsame ht⟩
  | block block mined =>
    obtain ⟨hmined, hstore, hreorg⟩ := hquiet
    suffices hblock : Post (addBlock env cfg block mined) s (fun _ ↦ Rooted env)
        (fun e t ↦ (mined = none → e ≠ cannotAttach) ∧ Rooted env t) from
      hblock.mono (fun _ _ ht ↦ ht) fun e t he ↦ ⟨fun b hb ↦ he.1 (Event.block.inj hb).2, he.2⟩
    have hraised {e : Exception} (he : Raised e) : e ≠ cannotAttach := by
      rintro rfl
      exact cannotAttach_not_raised he
    refine post_addBlock h (fun e t he ht ↦ ⟨fun _ ↦ hraised he, ht⟩) (fun hon ↦ ?_)
      (fun k fork hoff hfind htakes ↦ ?_) fun i src total hoff hfind hatt htakes ↦ ?_
    · refine post_append_indexed hpool (fun amounts hm ↦ ⟨(hmined amounts hm).1, (hmined amounts hm).2.1⟩)
        (fun w ↦ h.congr rfl rfl rfl) (fun e he ↦ ⟨fun hm ↦ ?_, h⟩) fun head txs cs pool hr _ _ w ↦ ?_
      · rcases raised_of_refused he with he | ⟨-, head, hhead, hne⟩
        · exact hraised he
        · refine absurd ?_ hon
          exact ⟨hm, by simp [canAttach, hhead, hne]⟩
      · exact (h.extend hr (hstore head (.main hon hr)) cs pool).congr rfl rfl rfl
    · have hmem := List.mem_of_getElem? (findFork_some hfind).2.1
      have hst := h.stored fork.head block
      obtain ⟨hanch, hkept⟩ := hst.forks fork hmem
      have hnew := kept_storeBlock fork.head block (hstore _ (.fork hoff hfind htakes))
      have hgrown : Rooted env (forked env s k fork block) := by
        refine hst.withForks fun f hf ↦ ?_
        rcases List.mem_or_eq_of_mem_set hf with hf | rfl
        · exact hst.forks f hf
        · refine ⟨hanch.snoc rfl, fun x hx ↦ ?_⟩
          rcases List.mem_append.mp hx with hx | hx
          · exact hkept x hx
          · rw [List.mem_singleton.mp hx]
            exact hnew
      have hk : k < s.forks.length := (List.getElem?_eq_some_iff.mp (findFork_some hfind).2.1).1
      refine ⟨fun _ ↦ hgrown, fun hheavier ↦ ?_⟩
      refine (post_reorg_rooted hgrown (List.mem_set hk _) hpool
        (hhashed.storeBlock (link env fork.head block))
        (hreorg k fork hoff hfind htakes hheavier)).mono (fun _ _ ht ↦ ht) fun _ _ he ↦ ?_
      exact ⟨fun _ ↦ he.1, he.2⟩
    · obtain ⟨-, hget, hprev⟩ := findAttachment_some hatt
      have hi := (List.getElem?_eq_some_iff.mp hget).1
      have hst := h.stored src block
      have hnew := kept_storeBlock src block (hstore _ (.newFork hoff hfind hatt htakes))
      refine hst.withForks fun f hf ↦ ?_
      rcases List.mem_append.mp hf with hf | hf
      · exact hst.forks f hf
      · have hlt := hep.main_lt
        rw [List.mem_singleton.mp hf]
        refine ⟨Anchored.snoc ⟨?_, .singleton _⟩ rfl, fun x hx ↦ ?_⟩
        · change s.mainChain.headerChain[(UInt32.ofNat i).toNat]? = some src
          rw [UInt32.toNat_ofNat', Nat.mod_eq_of_lt (by omega)]
          exact hget
        · simp only [grown, newFork, List.nil_append, List.mem_singleton] at hx
          rw [hx]
          exact hnew

theorem rooted_start {wallet : Store.Coins.Wallet} (hs : create env cfg wallet = .ok s) :
    Rooted env s := by
  obtain ⟨genesis, -, rfl⟩ := create_ok hs
  refine ⟨.singleton _, fun x hx ↦ ?_, fun x hx ↦ ?_, fun f hf ↦ ?_⟩
  · rw [List.mem_singleton.mp hx, Has]
    change ((started env wallet genesis).blockStore.lookup (genesis.hash env.toSodium)).isSome
    rw [started_lookup, if_pos rfl]
    rfl
  · simp [started] at hx
  · simp [started] at hf

/-- In every run whose reorgs disturb no fork, all forks are anchored in the main
chain, and neither a received block nor a reorg to one of the forks makes an
append throw. -/
theorem forks_anchored {wallet : Store.Coins.Wallet} (hs : create env cfg wallet = .ok s)
    (hrun : Run env cfg (Quiet env cfg) s t) :
    (∀ f ∈ t.forks, Anchored env t.mainChain.headerChain f) ∧
      (∀ block u, Quiet env cfg t (.block block none) →
        addBlock env cfg block none t ≠ .error (.throw cannotAttach) u) ∧
      ∀ k fork u, t.forks[k]? = some fork →
        reorg env cfg k fork t ≠ .error (.throw cannotAttach) u := by
  have hstep (u : ChainManager) (event : Event) (hu : Run env cfg (Quiet env cfg) s u)
      (hr : Rooted env u) (hquiet : Quiet env cfg u event) :=
    post_handle_rooted hr (firstEpoch_of_run hs (hu.mono fun _ _ ↦ Quiet.mined))
      (indexed_of_run hs (hu.mono fun _ _ ↦ Quiet.paid)) (hashed_of_run hs hu) hquiet
  have hend : Rooted env t := hrun.invariant_of_run (rooted_start hs) fun u event hu hr hquiet ↦
    (hstep u event hu hr hquiet).mono (fun _ _ ht ↦ ht) fun _ _ ht ↦ ht.2
  refine ⟨fun f hf ↦ (hend.forks f hf).1, fun block u hquiet hadd ↦ ?_,
    fun k fork u hfork hrun' ↦ ?_⟩
  · have hpost := hstep t _ hrun hend hquiet
    rw [Post, handle, hadd] at hpost
    exact hpost.1 block rfl rfl
  · have hpost : Post (reorg env cfg k fork) t (fun _ _ ↦ True) fun e _ ↦ Raised e :=
      post_reorg_attaches hend (List.mem_of_getElem? hfork)
    rw [Post, hrun'] at hpost
    exact cannotAttach_not_raised hpost

end Runs

section Sample

instance (k : ℕ) (fork : Fork) (s : ChainManager) : Decidable (Undisturbed env cfg k fork s) :=
  inferInstanceAs (Decidable (_ ∧ _))

def Fresh (env : Env) (cfg : Config) (s : ChainManager) : Event → Prop
  | .block block none => s.blockStore.lookup (block.hash env.toSodium) = none ∧
      ∀ r ∈ findFork env block.header 0 s.forks,
        s.mainChain.totalDifficulty <
          (grown r.2 (link env r.2.head block).header).totalDifficulty →
        Undisturbed env cfg r.1 (grown r.2 (link env r.2.head block).header)
          (forked env s r.1 r.2 block)
  | _ => False

instance (s : ChainManager) (event : Event) : Decidable (Fresh env cfg s event) :=
  match event with
  | .block _ none => inferInstanceAs (Decidable (_ ∧ _))
  | .block _ (some _) => .isFalse not_false
  | .tx _ => .isFalse not_false
  | .computation _ => .isFalse not_false

theorem Fresh.quiet {event : Event} (h : Fresh env cfg s event) : Quiet env cfg s event := by
  cases event with
  | tx tx => exact h.elim
  | computation comp => exact h.elim
  | block block mined =>
    cases mined with
    | some amounts => exact h.elim
    | none =>
      obtain ⟨hnew, hreorg⟩ := h
      refine ⟨by simp, fun head _ old hold ↦ ?_, fun k fork _ hfind _ ↦ hreorg (k, fork) hfind⟩
      rw [hnew] at hold
      cases hold

/-- Two forks of the genesis block, one of which becomes the main chain. -/
def crossing : List Event :=
  let a := arriving sampleGenesis 1
  let b₁ := arriving sampleGenesis 2
  let c := arriving sampleGenesis 3
  let b₂ := arriving b₁ 4
  [a, b₁, c, b₂].map (.block · none)

theorem forks_anchored_crossing : ∃ t, Run sampleEnv sampleConfig (Quiet sampleEnv sampleConfig)
    sampleStart t ∧ t.mainChain.headerChain.length = 3 ∧ t.forks.length = 2 ∧
      ∀ f ∈ t.forks, Anchored sampleEnv t.mainChain.headerChain f := by
  have hrun : (handleAll (Fresh sampleEnv sampleConfig) sampleEnv sampleConfig crossing
      sampleStart).map (fun t ↦ (t.mainChain.headerChain.length, t.forks.length)) = some (3, 2) := by
    decide +kernel
  obtain ⟨t, ht, hlen⟩ := Option.map_eq_some_iff.mp hrun
  have hrun' := (handleAll_run .start ht).mono fun _ _ ↦ Fresh.quiet
  exact ⟨t, hrun', (Prod.mk.inj hlen).1, (Prod.mk.inj hlen).2, (forks_anchored create_sample hrun').1⟩

/-- A fork of the first block of a main chain that a reorg takes off and does not
put back. -/
def displacing : List Event :=
  let a₁ := arriving sampleGenesis 1
  let a₂ := arriving a₁ 2
  let c₂ := arriving a₁ 3
  let b₁ := unhashable sampleGenesis 4
  let b₂ := arriving b₁ 5
  let b₃ := arriving b₂ 6
  [a₁, a₂, c₂, b₁, b₂, b₃].map (.block · none)

theorem halfway_reorg_displaces :
    ¬ ∀ (env : Env) (cfg : Config) (wallet : Store.Coins.Wallet) (s t : ChainManager),
      create env cfg wallet = .ok s → Run env cfg Received s t →
      ∀ f ∈ t.forks, Anchored env t.mainChain.headerChain f := by
  intro h
  have hrun : (handleAll Received sampleEnv sampleConfig displacing sampleStart).map
      (fun t ↦ decide (∀ f ∈ t.forks,
        t.mainChain.headerChain[f.chainSrc.toNat]? = some f.chainSrcHeader)) = some false := by
    decide +kernel
  obtain ⟨t, ht, hfalse⟩ := Option.map_eq_some_iff.mp hrun
  refine of_decide_eq_false hfalse fun f hf ↦ ?_
  exact (h _ _ _ _ t create_sample (handleAll_run .start ht) f hf).source

end Sample

end FheBlockchain.Chain.Anchors
