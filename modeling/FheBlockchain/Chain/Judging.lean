import FheBlockchain.Chain.PoolHistory
import FheBlockchain.Chain.Replay

namespace FheBlockchain.Chain.Judging

open Core.Transactions Core.Blocks Store.Pools Store.PoolFacts Validation ValidationFacts Manager
open AppendFacts Accepted Exceptions ReorgFacts Placement PoolHistory Replay Node
open Store.Chainstate hiding M addBlock
open Store.ChainstateEffects
open Library.Execution

variable {env : Env} {cfg : Config} {s t : ChainManager} {block : Block}
variable {v : Option (List (List UInt64))}

section Verdicts

/-- A block on which validation reaches a verdict: the first transaction is signed,
and checking the proofs, which have to be there, throws nothing. -/
structure Judgeable (env : Env) (block : Block) : Prop where
  signed : ∀ cb ∈ block.transactions.head?, AllSigned cb
  proofs : NoThrow (verifyComputations env block.header 0 block.header.computations)

instance (block : Block) : Decidable (Judgeable env block) :=
  decidable_of_iff ((∀ cb ∈ block.transactions.head?, AllSigned cb) ∧
    NoThrow (verifyComputations env block.header 0 block.header.computations))
    ⟨fun h ↦ ⟨h.1, h.2⟩, fun h ↦ ⟨h.1, h.2⟩⟩

def Attaches (env : Env) (s : ChainManager) (header : BlockHeader) : Prop :=
  ∃ head, s.mainChain.headerChain.getLast? = some head ∧ header.prevHash = head.hash env.toSodium

instance (s : ChainManager) (header : BlockHeader) : Decidable (Attaches env s header) :=
  decidable_of_iff (∃ head ∈ s.mainChain.headerChain.getLast?,
    header.prevHash = head.hash env.toSodium) Iff.rfl

theorem Judgeable.not_refused (h : Judgeable env block) (hattach : Attaches env s block.header)
    {e : Exception} : ¬ Refused env cfg s block none e := by
  obtain ⟨head, hhead, hprev⟩ := hattach
  rintro (⟨-, head', hhead', hne⟩ | hthrow)
  · rw [hhead, Option.some.injEq] at hhead'
    exact hne (hhead' ▸ hprev)
  · rcases validateBlock_throw hthrow with ⟨-, cb, hcb, hs⟩ | hverify
    · exact hs (h.signed cb hcb)
    · exact h.proofs e hverify

/-- Appending headers from the store, each block in turn has `P`, up to the
first one that is refused. -/
def Judged (env : Env) (cfg : Config) (P : ChainManager → Block → Prop) :
    List BlockHeader → ChainManager → Prop
  | [], _ => True
  | header :: headers, s => ∃ block, s.blockStore.lookup (header.hash env.toSodium) = some block ∧
      P s block ∧ ∀ t, appendBlock env cfg block none s = .ok true t → Judged env cfg P headers t

instance decidableJudged (P : ChainManager → Block → Prop) [∀ s b, Decidable (P s b)] :
    ∀ headers s, Decidable (Judged env cfg P headers s)
  | [], _ => .isTrue trivial
  | header :: headers, s =>
    have := decidableJudged P headers
    decidable_of_iff (∃ block ∈ s.blockStore.lookup (header.hash env.toSodium), P s block ∧
      ∀ t, appendBlock env cfg block none s = .ok true t → Judged env cfg P headers t) Iff.rfl

end Verdicts

section Store

def Hashed (env : Env) (store : MemBlockStore) : Prop :=
  ∀ k b, store.lookup k = some b → k = b.hash env.toSodium

theorem Hashed.storeBlock {store : MemBlockStore} (h : Hashed env store) (block : Block) :
    Hashed env (store.storeBlock (block.hash env.toSodium) block).1 := by
  intro k b hk
  rcases storeBlock_cases hk with hold | ⟨-, rfl, rfl⟩
  · exact h k b hold
  · rfl

theorem hashed_of_run {C : ChainManager → Event → Prop} {wallet : Store.Coins.Wallet}
    (hs : create env cfg wallet = .ok s) (hrun : Run env cfg C s t) : Hashed env t.blockStore := by
  refine hrun.invariant (I := fun t ↦ Hashed env t.blockStore) ?_
    fun _ event h _ ↦ post_handle_store (fun _ head block h ↦ h.storeBlock (link env head block)) h event
  obtain ⟨genesis, -, rfl⟩ := create_ok hs
  intro k b hk
  rw [started_lookup] at hk
  split_ifs at hk with heq
  rw [heq, Option.some.inj hk]

end Store

section Steps

variable {Q : Bool → ChainManager → Prop} {E : Exception → ChainManager → Prop}

theorem post_append_indexed (hpool : Indexed env.toSodium s.memPool)
    (hv : ∀ amounts ∈ v, Identified env.toSodium block ∧
      AllPriced env.toSodium (withAmounts block amounts))
    (hfalse : Q false s) (hthrow : ∀ e, Refused env cfg s block v e → E e s)
    (htrue : ∀ head txs cs pool, Ready env cfg s block v head txs →
      Identified env.toSodium block → Shrunk env.toSodium s.memPool pool →
      Q true (extended env s (link env head block) cs pool)) :
    Post (appendBlock env cfg block v) s Q E := by
  rcases appendBlock_cases s block v with ⟨e, he, href⟩ | hf | ⟨head, txs, hr, happ⟩
  · rw [Post, he]
    cases e with
    | throw e => exact hthrow e (href e rfl)
    | abort u => trivial
  · rw [Post, hf]
    exact hfalse
  · obtain ⟨hids, hpriced⟩ : Identified env.toSodium block ∧ AllPriced env.toSodium txs := by
      cases v with
      | none => exact ⟨identified_of_validated hr.checked, allPriced_of_validated hr.checked⟩
      | some amounts =>
        obtain rfl := Option.some.inj (Except.ok.inj hr.checked)
        exact hv amounts rfl
    have hadd := addBlock_throwless (UInt32.ofNat s.mainChain.headerChain.length) s.chainstate hids.txids
    have hspend := post_spendBlock hpool hpriced
    rw [Post] at hadd hspend
    rw [Post, happ]
    simp only [bind, EStateM.bind, extendMain_eq, addBlock_link, if_pos hids.proven]
    cases hcs : Store.Chainstate.addBlock env.toSodium block
        (UInt32.ofNat s.mainChain.headerChain.length) s.chainstate with
    | error e cs =>
      rw [hcs] at hadd
      cases e with
      | throw e => exact absurd hadd not_false
      | abort u => trivial
    | ok _ cs =>
      cases hrun : MemPool.spendBlock env.toSodium txs s.memPool with
      | ok _ pool =>
        rw [hrun] at hspend
        exact htrue head txs cs pool hr hids hspend
      | error e pool =>
        rw [hrun] at hspend
        cases e with
        | throw e => exact absurd hspend not_false
        | abort u => trivial

theorem rewindBlock_throwless {na : Sodium} (hids : Identified na block) (cs : MemChainstate) :
    Post (rewindBlock na block) cs (fun _ _ ↦ True) (fun _ _ ↦ False) := by
  refine post_forM (I := fun _ ↦ True) (fun tx htx cs _ ↦ ?_) trivial
  obtain ⟨txid, hid⟩ := txidForOutputs_ok (hids.txids tx.2 (mem_of_mem_flagged htx))
  refine post_bind_ofExcept (fun _ _ ↦ post_bind_modify.mpr ?_) fun e he ↦ by simp [hid] at he
  split_ifs
  · trivial
  · refine post_forM (I := fun _ ↦ True) (fun inp _ cs _ ↦ post_bind_get.mpr ?_) trivial
    split <;> trivial

theorem rewindHeaders_throwless (headers : List BlockHeader) (s : ChainManager)
    (hstored : ∀ h ∈ headers, ∃ b, s.blockStore.lookup (h.hash env.toSodium) = some b ∧
      Identified env.toSodium b) :
    Post (rewindHeaders env headers) s (fun _ t ↦ t = { s with chainstate := t.chainstate })
      (fun _ _ ↦ False) := by
  refine post_forM (I := fun t : ChainManager ↦ t = { s with chainstate := t.chainstate })
    (fun header hmem t ht ↦ post_bind_get.mpr ?_) rfl
  obtain ⟨block, hb, hids⟩ := hstored header hmem
  rw [ht, getBlock_of_lookup hb]
  exact post_bind_ofExcept_ok.mpr (post_focus ((rewindBlock_throwless hids _).mono
    (fun _ _ _ ↦ rfl) fun _ _ he ↦ he))

end Steps

section Midway

variable {src : ℕ} {done : List BlockHeader}

theorem getLast?_take_append {α : Type} {l done : List α} {a : α} (h : l[src]? = some a) :
    (l.take (src + 1) ++ done).getLast? = some (done.getLastD a) := by
  have hin := (List.getElem?_eq_some_iff.mp h).1
  have hbase : (l.take (src + 1)).getLast? = some a := by
    rw [List.getLast?_eq_getElem?, List.length_take, Nat.min_eq_left hin, List.getElem?_take,
      if_pos (by omega), Nat.succ_sub_one, h]
  rw [List.getLast?_append, hbase, List.getLastD_eq_getLast?]
  cases done.getLast? <;> rfl

/-- A main chain in the middle of a reorg from `s`: the headers up to the branch
point and the ones that have been appended since. -/
structure Midway (env : Env) (s : ChainManager) (src : ℕ) (done : List BlockHeader)
    (t : ChainManager) : Prop where
  chain : t.mainChain.headerChain = s.mainChain.headerChain.take (src + 1) ++ done
  forks : t.forks = s.forks
  grows : Grows s.blockStore t.blockStore
  hashed : Hashed env t.blockStore
  pool : Indexed env.toSodium t.memPool
  stored : ∀ h ∈ done, ∃ b, t.blockStore.lookup (h.hash env.toSodium) = some b ∧
    Identified env.toSodium b

theorem Midway.start (hhashed : Hashed env s.blockStore) (hpool : Indexed env.toSodium s.memPool)
    (hstored : ∀ h ∈ s.mainChain.headerChain.drop (src + 1),
      ∃ b, s.blockStore.lookup (h.hash env.toSodium) = some b ∧ Identified env.toSodium b) :
    Midway env s src (s.mainChain.headerChain.drop (src + 1)) s :=
  ⟨(List.take_append_drop _ _).symm, rfl, fun _ _ h ↦ h, hhashed, hpool, hstored⟩

theorem Midway.cut (h : Midway env s src done t) (hsrc : src < s.mainChain.headerChain.length) :
    Post (rewindHeaders env (t.mainChain.headerChain.drop (src + 1)).reverse) t
      (fun _ u ↦ Midway env s src [] (truncated (src + 1) u)) (fun _ _ ↦ False) := by
  have hlen : (s.mainChain.headerChain.take (src + 1)).length = src + 1 := by
    rw [List.length_take]
    omega
  have htail : t.mainChain.headerChain.drop (src + 1) = done := by
    rw [h.chain, List.drop_left' hlen]
  rw [htail]
  refine (rewindHeaders_throwless _ t fun x hx ↦ h.stored x (List.mem_reverse.mp hx)).mono
    (fun _ u hu ↦ ?_) fun _ _ he ↦ he
  rw [hu]
  refine ⟨?_, h.forks, h.grows, h.hashed, h.pool, by simp⟩
  rw [List.append_nil]
  change t.mainChain.headerChain.take (src + 1) = _
  rw [h.chain, List.take_left' hlen]

theorem Midway.append (h : Midway env s src done t) {hash : Bytes}
    (hb : t.blockStore.lookup hash = some block) (hattach : Attaches env t block.header)
    (hj : Judgeable env block) :
    Post (appendBlock env cfg block none) t
      (fun r u ↦ if r then ∃ head txs, Ready env cfg t block none head txs ∧
          (link env head block).header.hash env.toSodium = hash ∧
          Midway env s src (done ++ [(link env head block).header]) u
        else u = t) (fun _ _ ↦ False) := by
  refine post_append_indexed h.pool (by simp) rfl (fun e he ↦ hj.not_refused hattach he)
    fun head txs cs pool hr hids hpool ↦ ?_
  have hhash : hash = block.hash env.toSodium := h.hashed _ _ hb
  have hgrow := grows_storeBlock t.blockStore (block.hash env.toSodium) (link env head block)
  rw [if_pos rfl]
  refine ⟨head, txs, hr, hhash.symm, ?_, h.forks, fun k b hk ↦ hgrow k b (h.grows k b hk),
    h.hashed.storeBlock (link env head block), hpool.indexed, fun x hx ↦ ?_⟩
  · rw [← List.append_assoc, ← h.chain]
    rfl
  · rcases List.mem_append.mp hx with hx | hx
    · obtain ⟨b, hb', hids'⟩ := h.stored x hx
      exact ⟨b, hgrow _ _ hb', hids'⟩
    · rw [List.mem_singleton.mp hx]
      rw [hhash] at hb
      exact ⟨block, hgrow _ _ hb, hids⟩

theorem Midway.getLast (h : Midway env s src done t) {srcHeader : BlockHeader}
    (hsrc : s.mainChain.headerChain[src]? = some srcHeader) :
    t.mainChain.headerChain.getLast? = some (done.getLastD srcHeader) := by
  rw [h.chain, getLast?_take_append hsrc]

end Midway

/-- A block whose first transaction is not signed. Forks take it by its header, and
validation throws. -/
def unhashable (prev : Block) (timestamp : Int64) : Block :=
  sampleBlock prev timestamp [⟨[.unsigned (zeros 32) 0], [⟨50, sampleKey⟩]⟩]

end FheBlockchain.Chain.Judging
