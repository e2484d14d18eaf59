import FheBlockchain.Chain.Exceptions
import FheBlockchain.Chain.Ledgers
import FheBlockchain.Chain.ReorgFacts
import FheBlockchain.Store.CoinFacts

namespace FheBlockchain.Chain.Placement

open Core.Transactions Core.Blocks Store.Pools Validation ValidationFacts Manager AppendFacts
open Exceptions Ledgers
open ReorgFacts Store.CoinFacts
open Store.Chainstate hiding M addBlock
open Library.Execution

variable {env : Env} {cfg : Config} {s t : ChainManager} {block : Block}
variable {mined : Option (List (List UInt64))}

def newFork (i : ℕ) (src : BlockHeader) (total : ℕ) : Fork where
  chainSrc := UInt32.ofNat i
  chainSrcHeader := src
  headerChain := []
  totalDifficulty := total

def grown (fork : Fork) (header : BlockHeader) : Fork :=
  { fork with
    headerChain := fork.headerChain ++ [header]
    totalDifficulty := fork.totalDifficulty + header.difficulty.toNat }

def withStored (env : Env) (s : ChainManager) (block : Block) : ChainManager :=
  { s with blockStore := (s.blockStore.storeBlock (block.hash env.toSodium) block).1 }

def forked (env : Env) (s : ChainManager) (k : ℕ) (fork : Fork) (block : Block) : ChainManager :=
  { withStored env s (link env fork.head block) with
    forks := s.forks.set k (grown fork (link env fork.head block).header) }

def ForkTakes (env : Env) (cfg : Config) (fork : Fork) (header : BlockHeader) : Prop :=
  validateHeaderUnsafe env cfg fork.headerChain header (fork.currentForkHeight + 1) = .ok true

instance (fork : Fork) (header : BlockHeader) : Decidable (ForkTakes env cfg fork header) :=
  inferInstanceAs (Decidable (_ = _))

/-- `add_block` looks for a place beyond the tip of the main chain. -/
def OffMain (env : Env) (s : ChainManager) (block : Block) (mined : Option (List (List UInt64))) :
    Prop :=
  mined = none ∧ canAttach env s.mainChain.headerChain block.header = false

instance (s : ChainManager) (block : Block) : Decidable (OffMain env s block mined) :=
  inferInstanceAs (Decidable (_ ∧ _))

/-- The places at which `add_block` takes a block in, by the header that it is
linked to. -/
inductive Placed (env : Env) (cfg : Config) (s : ChainManager) (block : Block)
    (mined : Option (List (List UInt64))) : BlockHeader → Prop
  | main {head : BlockHeader} {txs : List PooledTx} :
      ¬ OffMain env s block mined → Ready env cfg s block mined head txs →
      Placed env cfg s block mined head
  | fork {k : ℕ} {fork : Fork} :
      OffMain env s block mined → findFork env block.header 0 s.forks = some (k, fork) →
      ForkTakes env cfg fork block.header → Placed env cfg s block mined fork.head
  | newFork {i total : ℕ} {src : BlockHeader} :
      OffMain env s block mined → findFork env block.header 0 s.forks = none →
      findAttachment env block.header 0 0 s.mainChain.headerChain = some (i, src, total) →
      ForkTakes env cfg (newFork i src total) block.header → Placed env cfg s block mined src

variable {Q : ChainManager → Prop} {E : Exception → ChainManager → Prop}

theorem post_forkAppend {fork : Fork} {Q : Fork × Bool → ChainManager → Prop}
    (hattach : canAttach env fork.headerChain block.header = true)
    (hsame : Q (fork, false) s) (hthrow : ∀ e, Raised e → E e s)
    (hok : ForkTakes env cfg fork block.header →
      Q (grown fork (link env fork.head block).header, true)
        (withStored env s (link env fork.head block))) :
    Post (fork.appendBlock env cfg block) s Q E := by
  rw [Fork.appendBlock, hattach]
  simp only [Bool.not_true, Bool.false_eq_true, if_false]
  refine post_bind_ofExcept (fun valid hvalid ↦ ?_) fun e he ↦ hthrow e ?_
  · cases valid with
    | false => exact hsame
    | true =>
      rw [if_neg (by simp), Post]
      refine Eq.mpr ?_ (hok hvalid)
      rw [run_bind_of_ok (storeBlock_proven (proven_of_header hvalid) s)]
      rfl
  · exact verifyComputations_raised (validateHeader_throw he)

theorem findFork_some {header : BlockHeader} {forks : List Fork} {i k : ℕ} {fork : Fork}
    (h : findFork env header i forks = some (k, fork)) :
    i ≤ k ∧ forks[k - i]? = some fork ∧ canAttach env fork.headerChain header = true := by
  induction forks generalizing i with
  | nil => simp [findFork] at h
  | cons f forks ih =>
    rw [findFork] at h
    split_ifs at h with hc
    · simp only [Option.some.injEq, Prod.mk.injEq] at h
      obtain ⟨rfl, rfl⟩ := h
      exact ⟨le_rfl, by simp, hc⟩
    · obtain ⟨hle, hget, hattach⟩ := ih h
      refine ⟨by omega, ?_, hattach⟩
      rw [show k - i = (k - (i + 1)) + 1 by omega]
      simpa using hget

theorem findAttachment_some {header src : BlockHeader} {chain : List BlockHeader} {i j total acc : ℕ}
    (h : findAttachment env header j acc chain = some (i, src, total)) :
    j ≤ i ∧ chain[i - j]? = some src ∧ header.prevHash = src.hash env.toSodium := by
  induction chain generalizing j acc with
  | nil => simp [findAttachment] at h
  | cons x chain ih =>
    rw [findAttachment] at h
    split_ifs at h with hx
    · simp only [Option.some.injEq, Prod.mk.injEq] at h
      obtain ⟨rfl, rfl, -⟩ := h
      exact ⟨le_rfl, by simp, hx⟩
    · obtain ⟨hle, hget, hprev⟩ := ih h
      refine ⟨by omega, ?_, hprev⟩
      rw [show i - j = (i - (j + 1)) + 1 by omega]
      simpa using hget

theorem updateWallet_run (hids : Identified env.toSodium block) (s : ChainManager) :
    updateWallet env block s = .ok () { s with
      wallet := Store.Coins.spendBlock block
        (block.transactions.foldl (receiveAll env.toSodium) s.wallet) } := by
  have hfilter : onWallet (Store.Coins.filterBlock env.toSodium block) s = .ok () { s with
      wallet := block.transactions.foldl (receiveAll env.toSodium) s.wallet } :=
    focus_of_ok (filterBlock_run hids.txids s.wallet)
  exact run_bind_of_ok hfilter

/-- Where `add_block` puts a block: on the main chain, on the first fork that
it attaches to, or on a new fork. -/
theorem post_addBlock_places (hsame : Q s) (hE : ∀ e, Raised e → E e s)
    (hmain : ¬ OffMain env s block mined →
      Post (appendAndUpdate env cfg block mined) s (fun _ ↦ Q) E)
    (hfork : ∀ k fork, OffMain env s block mined →
      findFork env block.header 0 s.forks = some (k, fork) →
      ForkTakes env cfg fork block.header →
      let fork' := grown fork (link env fork.head block).header
      let t := { withStored env s (link env fork.head block) with forks := s.forks.set k fork' }
      (fork'.totalDifficulty ≤ s.mainChain.totalDifficulty → Q t) ∧
      (s.mainChain.totalDifficulty < fork'.totalDifficulty →
        Post (reorg env cfg k fork') t (fun _ ↦ Q) E))
    (hnew : ∀ i src total, OffMain env s block mined →
      findFork env block.header 0 s.forks = none →
      findAttachment env block.header 0 0 s.mainChain.headerChain = some (i, src, total) →
      ForkTakes env cfg (newFork i src total) block.header →
      Q { withStored env s (link env src block) with
        forks := s.forks ++ [grown (newFork i src total) (link env src block).header] }) :
    Post (addBlock env cfg block mined) s (fun _ ↦ Q) E := by
  rw [addBlock]
  refine post_bind_get.mpr ?_
  cases hm : mined with
  | some amounts =>
    simp only [Option.isSome_some, if_true]
    rw [← hm]
    exact hmain (by simp [OffMain, hm])
  | none =>
    simp only [Option.isSome_none, Bool.false_eq_true, if_false]
    split_ifs with hattach
    · rw [← hm]
      exact hmain (by simp [OffMain, hattach])
    · have hoff : OffMain env s block mined := ⟨hm, by simpa using hattach⟩
      cases hfind : findFork env block.header 0 s.forks with
      | some r =>
        obtain ⟨k, fork⟩ := r
        refine Post.bind (post_forkAppend (findFork_some hfind).2.2
          (Q := fun r t ↦ (r.2 = false ∧ t = s) ∨ (ForkTakes env cfg fork block.header ∧
            r = (grown fork (link env fork.head block).header, true) ∧
            t = withStored env s (link env fork.head block)))
          (.inl ⟨rfl, rfl⟩) hE fun h ↦ .inr ⟨h, rfl, rfl⟩) ?_
        rintro ⟨fork', added⟩ t (⟨rfl, rfl⟩ | ⟨hvalid, he, rfl⟩)
        · exact hsame
        · cases he
          obtain ⟨hle, hlt⟩ := hfork k fork hoff hfind hvalid
          refine post_bind_modify.mpr (post_bind_get.mpr ?_)
          dsimp only
          split_ifs with hc
          · exact (hlt hc).bind fun _ _ hq ↦ hq
          · exact hle (Nat.le_of_not_lt hc)
      | none =>
        refine post_bind_get.mpr ?_
        cases hatt : findAttachment env block.header 0 0 s.mainChain.headerChain with
        | none => exact hsame
        | some r =>
          obtain ⟨i, src, total⟩ := r
          refine Post.bind (post_forkAppend
            (Q := fun r t ↦ (r.2 = false ∧ t = s) ∨
              (ForkTakes env cfg (newFork i src total) block.header ∧
                r = (grown (newFork i src total) (link env src block).header, true) ∧
                t = withStored env s (link env src block)))
            rfl (.inl ⟨rfl, rfl⟩) hE fun h ↦ .inr ⟨h, rfl, rfl⟩) ?_
          rintro ⟨fork', added⟩ t (⟨rfl, rfl⟩ | ⟨hvalid, he, rfl⟩)
          · exact hsame
          · cases he
            exact hnew i src total hoff hfind hatt hvalid

theorem post_addBlock (hsame : Q s) (hE : ∀ e t, Raised e → Q t → E e t)
    (hmain : ¬ OffMain env s block mined → Post (appendBlock env cfg block mined) s
      (fun _ t ↦ ∀ w, Q { t with wallet := w }) E)
    (hfork : ∀ k fork, OffMain env s block mined →
      findFork env block.header 0 s.forks = some (k, fork) →
      ForkTakes env cfg fork block.header →
      let fork' := grown fork (link env fork.head block).header
      let t := { withStored env s (link env fork.head block) with forks := s.forks.set k fork' }
      (fork'.totalDifficulty ≤ s.mainChain.totalDifficulty → Q t) ∧
      (s.mainChain.totalDifficulty < fork'.totalDifficulty →
        Post (reorg env cfg k fork') t (fun _ ↦ Q) E))
    (hnew : ∀ i src total, OffMain env s block mined →
      findFork env block.header 0 s.forks = none →
      findAttachment env block.header 0 0 s.mainChain.headerChain = some (i, src, total) →
      ForkTakes env cfg (newFork i src total) block.header →
      Q { withStored env s (link env src block) with
        forks := s.forks ++ [grown (newFork i src total) (link env src block).header] }) :
    Post (addBlock env cfg block mined) s (fun _ ↦ Q) E := by
  refine post_addBlock_places hsame (fun e he ↦ hE e s he hsame) (fun h ↦ ?_) hfork hnew
  refine (hmain h).bind fun added t ht ↦ ?_
  cases added with
  | false => exact ht t.wallet
  | true =>
    refine Post.bind (R := fun _ ↦ Q) ?_ fun _ _ hq ↦ hq
    refine Post.bind (R := fun _ u ↦ ∃ w, u = { t with wallet := w }) ?_ ?_
    · exact post_focus ((filterBlock_raised block t.wallet).mono (fun _ w _ ↦ ⟨w, rfl⟩)
        fun e w he ↦ hE e _ he (ht w))
    · rintro _ u ⟨w, rfl⟩
      exact ht _

end FheBlockchain.Chain.Placement
