import FheBlockchain.Chain.Accepted

namespace FheBlockchain.Chain.Ledgers

open Core.Transactions Core.Blocks Store.ChainstateEffects Store.ChainstateRewind
open Store.ChainstateKeys Store.Pools Validation ValidationFacts Manager AppendFacts Accepted
open Store.Chainstate hiding M
open Library.Execution

variable {env : Env} {cfg : Config} {V : List Block → MemChainstate → Block → Prop}
variable {blocks rest : List Block} {block : Block} {cs cs' : MemChainstate}

/-- Linked blocks from the genesis block on, and the chainstate that they lead
to. No key is created twice, and `V` has been asked of each block. -/
inductive Ledger (env : Env) (cfg : Config) (V : List Block → MemChainstate → Block → Prop) :
    List Block → MemChainstate → Prop
  | genesis {genesis : Block} :
      Block.genesis env.toSodium cfg.timestamp cfg.difficulty cfg.publicKey cfg.reward =
        .ok genesis →
      Ledger env cfg V [genesis] (applyAll (blockEffects env.toSodium genesis 0) .empty)
  | append {blocks : List Block} {block prev : Block} {cs : MemChainstate} :
      Ledger env cfg V blocks cs → blocks.getLast? = some prev →
      block.header.prevBlockHeader = some (prev.hash env.toSodium) →
      Takeable env.toSodium cs block → (createdIn env.toSodium (blocks ++ [block])).Nodup →
      V blocks cs block →
      Ledger env cfg V (blocks ++ [block])
        (applyAll (blockEffects env.toSodium block (UInt32.ofNat blocks.length)) cs)

theorem Ledger.ne_nil (h : Ledger env cfg V blocks cs) : blocks ≠ [] := by
  cases h <;> simp

theorem Ledger.keyed (h : Ledger env cfg V blocks cs) :
    (createdIn env.toSodium blocks).Nodup ∧
      Keyed cs (createdIn env.toSodium blocks) (consumedIn env.toSodium blocks) := by
  induction h with
  | genesis hgen => exact @keyed_genesis env cfg ⟨cfg.publicKey, ∅⟩ _ hgen
  | @append blocks block prev cs _ _ _ htake hnd _ ih =>
    refine ⟨hnd, ?_⟩
    rw [createdIn_append _ _ _ (UInt32.ofNat blocks.length)] at hnd ⊢
    rw [consumedIn_append _ _ _ (UInt32.ofNat blocks.length)]
    exact ih.2.step (htake.spendable_at _) hnd

/-- How the last block of a ledger came in. -/
theorem Ledger.append_inv (h : Ledger env cfg V (blocks ++ [block]) cs) (hne : blocks ≠ []) :
    ∃ cs₀ prev, Ledger env cfg V blocks cs₀ ∧ blocks.getLast? = some prev ∧
      block.header.prevBlockHeader = some (prev.hash env.toSodium) ∧
      Takeable env.toSodium cs₀ block ∧ V blocks cs₀ block ∧
      cs = applyAll (blockEffects env.toSodium block (UInt32.ofNat blocks.length)) cs₀ := by
  generalize hall : blocks ++ [block] = all at h
  cases h with
  | genesis hgen =>
    rw [List.append_eq_singleton_iff] at hall
    simp [hne] at hall
  | @append blocks' block' prev cs₀ hold hlast hlink htake hnd hV =>
    obtain ⟨rfl, hb⟩ := List.append_inj' hall rfl
    obtain rfl := List.singleton_inj.mp hb
    exact ⟨cs₀, prev, hold, hlast, hlink, htake, hV, rfl⟩

theorem Ledger.rewind (h : Ledger env cfg V (blocks ++ [block]) cs) (hne : blocks ≠ []) :
    ∃ cs₀, Ledger env cfg V blocks cs₀ ∧ rewindBlock env.toSodium block cs = .ok () cs₀ := by
  obtain ⟨cs₀, prev, hold, -, -, htake, -, rfl⟩ := h.append_inv hne
  have hnd := h.keyed.1
  rw [createdIn_append _ _ _ (UInt32.ofNat blocks.length)] at hnd
  have hfresh := hold.keyed.2.fresh (htake.spendable_at (UInt32.ofNat blocks.length)) hnd
  obtain ⟨cs', hadd, hrew⟩ := rewindBlock_addBlock env.toSodium
    (fun tx htx ↦ txidForOutputs_ok (htake.ids tx htx)) hfresh (List.nodup_append.mp hnd).2.1
  rw [htake.addBlock_run] at hadd
  cases hadd
  exact ⟨cs₀, hold, hrew⟩

theorem Ledger.unique (h : Ledger env cfg V blocks cs) (h' : Ledger env cfg V blocks cs') :
    cs = cs' := by
  induction h generalizing cs' with
  | @genesis genesis hgen =>
    generalize hall : [genesis] = all at h'
    cases h' with
    | genesis hgen' =>
      obtain rfl := List.singleton_inj.mp hall
      rfl
    | append hold =>
      have := List.append_eq_singleton_iff.mp hall.symm
      simp [hold.ne_nil] at this
  | append hold _ _ _ _ _ ih =>
    obtain ⟨cs₀, prev, hold', -, -, -, -, rfl⟩ := h'.append_inv hold.ne_nil
    rw [ih hold']

theorem Ledger.rewind_to (h : Ledger env cfg V (blocks ++ rest) cs) (hne : blocks ≠ []) :
    ∃ cs₀, Ledger env cfg V blocks cs₀ ∧
      rest.reverse.forM (rewindBlock env.toSodium) cs = .ok () cs₀ := by
  induction rest using List.reverseRecOn generalizing cs with
  | nil =>
    rw [List.append_nil] at h
    exact ⟨cs, h, rfl⟩
  | append_singleton rest block ih =>
    rw [← List.append_assoc] at h
    obtain ⟨cs₁, hold, hrew⟩ := h.rewind (by simp [hne])
    obtain ⟨cs₀, hfirst, hrest⟩ := ih hold
    refine ⟨cs₀, hfirst, ?_⟩
    rw [List.reverse_append, List.reverse_singleton, List.singleton_append, forM_cons, hrew]
    exact hrest

def Linked (env : Env) (a b : BlockHeader) : Prop :=
  b.prevBlockHeader = some (a.hash env.toSodium)

theorem Ledger.linked (h : Ledger env cfg V blocks cs) :
    (blocks.map Block.header).IsChain (Linked env) := by
  induction h with
  | genesis => simp
  | @append blocks block prev cs _ hlast hlink _ _ _ ih =>
    rw [List.map_append, List.map_singleton, List.isChain_append]
    refine ⟨ih, by simp, fun a ha b hb ↦ ?_⟩
    rw [List.getLast?_map, hlast] at ha
    simp only [Option.map_some, Option.mem_some_iff, List.head?_cons] at ha hb
    rw [← ha, ← hb]
    exact hlink

section Append

variable {s : ChainManager} {v : Option (List (List UInt64))}
variable {Q : Bool → ChainManager → Prop} {E : Exception → ChainManager → Prop}

theorem post_appendBlock (hfalse : appendBlock env cfg block v s = .ok false s → Q false s)
    (hthrow : ∀ e, Refused env cfg s block v e → E e s)
    (htake : ∀ head txs, Ready env cfg s block v head txs →
      Takeable env.toSodium s.chainstate block)
    (hready : ∀ head txs, Ready env cfg s block v head txs →
      Post (MemPool.spendBlock env.toSodium txs) s.memPool
        (fun _ pool ↦ Q true (extended env s (link env head block)
          (applyAll (nextEffects env s block) s.chainstate) pool))
        (fun e pool ↦ E e (recorded env s (link env head block)
          (applyAll (nextEffects env s block) s.chainstate) pool))) :
    Post (appendBlock env cfg block v) s Q E := by
  rcases appendBlock_cases s block v with ⟨e, he, href⟩ | hf | ⟨head, txs, hr, happ⟩
  · rw [Post, he]
    cases e with
    | throw e => exact hthrow e (href e rfl)
    | abort u => trivial
  · rw [Post, hf]
    exact hfalse hf
  · have hadd := (htake head txs hr).addBlock_run (UInt32.ofNat s.mainChain.headerChain.length)
    have hpool := hready head txs hr
    rw [Post] at hpool
    rw [Post, happ]
    simp only [bind, EStateM.bind, extendMain_eq, addBlock_link, hadd,
      if_pos (htake head txs hr).proven]
    cases hspend : MemPool.spendBlock env.toSodium txs s.memPool with
    | ok _ pool =>
      rw [hspend] at hpool
      exact hpool
    | error e pool =>
      rw [hspend] at hpool
      cases e with
      | throw e => exact hpool
      | abort u => trivial

theorem link_eq {head : BlockHeader} (h : block.header.prevBlockHeader.isSome)
    (hprev : block.header.prevHash = head.hash env.toSodium) : link env head block = block := by
  obtain ⟨p, hp⟩ := Option.isSome_iff_exists.mp h
  rw [BlockHeader.prevHash, hp, Option.getD_some] at hprev
  cases block with
  | mk header txs =>
    cases header
    simp_all [link]

end Append

end FheBlockchain.Chain.Ledgers
