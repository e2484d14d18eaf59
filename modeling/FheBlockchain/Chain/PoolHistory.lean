import FheBlockchain.Chain.Placement
import FheBlockchain.Chain.Node
import FheBlockchain.Store.PoolFacts

namespace FheBlockchain.Chain.PoolHistory

open Core.Transactions Core.Blocks Store.Pools Store.PoolFacts Validation ValidationFacts Manager
open AppendFacts Accepted Exceptions ReorgFacts Placement Node
open Store.Chainstate hiding M addBlock
open Store.Coins hiding M
open Library.Execution Library.Results

variable {env : Env} {cfg : Config} {s t : ChainManager} {block : Block}
variable {v : Option (List (List UInt64))} {P : MemPool → Prop}

section Pool

def AllPriced (na : Sodium) (txs : List PooledTx) : Prop := ∀ p ∈ txs.tail, ∃ txid, Priced na p txid

instance (na : Sodium) (txs : List PooledTx) : Decidable (AllPriced na txs) :=
  decidable_of_iff (∀ p ∈ txs.tail, (p.tx.txid na).isOk = true ∧ p.fee.isOk = true)
    (forall₂_congr fun _ _ ↦ priced_iff.symm)

theorem allPriced_of_validated {cs : MemChainstate} {chain : List BlockHeader} {height : UInt32}
    {txs : List PooledTx} (h : validateBlock env cfg chain cs block height = .ok (some txs)) :
    AllPriced env.toSodium txs := by
  obtain ⟨cb, rest, cks, hb, rfl⟩ := validateBlock_some h
  intro p hp
  obtain ⟨c, hc, rfl⟩ := List.mem_map.mp hp
  obtain ⟨tx, -, hchecked⟩ := exists_of_forall₂ (List.Forall₂.flip hb.checked) hc
  exact ⟨c.txid, by rw [hchecked.tx_eq]; exact hchecked.txid_eq, c.fee, hchecked.fee_eq⟩

theorem post_append_pool
    (hP : ∀ pool txs, P pool → AllPriced env.toSodium txs →
      Post (MemPool.spendBlock env.toSodium txs) pool (fun _ ↦ P) (fun _ ↦ P))
    (hs : P s.memPool) (hv : ∀ amounts ∈ v, AllPriced env.toSodium (withAmounts block amounts)) :
    Post (appendBlock env cfg block v) s (fun _ t ↦ P t.memPool) (fun _ t ↦ P t.memPool) := by
  rcases appendBlock_cases s block v with ⟨e, he, -⟩ | hf | ⟨head, txs, hr, happ⟩
  · rw [Post, he]
    cases e with
    | throw e => exact hs
    | abort u => trivial
  · rw [Post, hf]
    exact hs
  · have hpriced : AllPriced env.toSodium txs := by
      cases v with
      | none => exact allPriced_of_validated hr.checked
      | some amounts =>
        obtain rfl := Option.some.inj (Except.ok.inj hr.checked)
        exact hv amounts rfl
    have hspend := hP s.memPool txs hs hpriced
    rw [Post] at hspend
    rw [Post, happ]
    simp only [bind, EStateM.bind, extendMain_eq]
    cases Store.Chainstate.addBlock env.toSodium (link env head block)
        (UInt32.ofNat s.mainChain.headerChain.length) s.chainstate with
    | error e cs =>
      cases e with
      | throw e => exact hs
      | abort u => trivial
    | ok _ cs =>
      dsimp only
      split_ifs
      · cases hrun : MemPool.spendBlock env.toSodium txs s.memPool with
        | ok _ pool =>
          rw [hrun] at hspend
          exact hspend
        | error e pool =>
          rw [hrun] at hspend
          cases e with
          | throw e => exact hspend
          | abort u => trivial
      · exact hs

theorem post_addBlock_pool
    (hP : ∀ pool txs, P pool → AllPriced env.toSodium txs →
      Post (MemPool.spendBlock env.toSodium txs) pool (fun _ ↦ P) (fun _ ↦ P))
    (hs : P s.memPool) (hv : ∀ amounts ∈ v, AllPriced env.toSodium (withAmounts block amounts)) :
    Post (addBlock env cfg block v) s (fun _ t ↦ P t.memPool) (fun _ t ↦ P t.memPool) := by
  have happend (t : ChainManager) (b : Block) (ht : P t.memPool) :=
    @post_append_pool env cfg t b none P hP ht (by simp)
  refine post_addBlock (Q := fun t ↦ P t.memPool) hs (fun _ _ _ ht ↦ ht) (fun _ ↦ ?_)
    (fun k fork _ _ _ ↦ ⟨fun _ ↦ hs, fun _ ↦ ?_⟩) fun _ _ _ _ _ _ _ ↦ hs
  · exact (post_append_pool hP hs hv).mono (fun _ _ ht _ ↦ ht) fun _ _ ht ↦ ht
  · exact post_reorg_keeps (K := fun t ↦ P t.memPool) hs (fun _ ht ↦ ht) (fun _ _ ht ↦ ht)
      (fun _ ht ↦ ht) (fun t _ b ht _ ↦ happend t b ht) (fun _ _ _ _ ht _ ↦ ht) fun _ _ _ _ ht ↦ ht

end Pool

section History

def Paid (na : Sodium) : ChainManager → Event → Prop
  | _, .block block (some amounts) => AllPriced na (withAmounts block amounts)
  | _, _ => True

theorem post_addTx_indexed (h : Indexed env.toSodium s.memPool) (tx : Transaction) :
    Post (addTx env tx) s (fun _ t ↦ Indexed env.toSodium t.memPool)
      (fun _ t ↦ Indexed env.toSodium t.memPool) := by
  refine post_bind_get.mpr ?_
  dsimp only
  split
  · exact h
  next recs _ =>
    refine post_bind_ofExcept (fun valid hvalid ↦ ?_) fun _ _ ↦ h
    cases valid with
    | false => exact h
    | true =>
      obtain ⟨hsigned, hfee⟩ := validateTransaction_true hvalid
      refine post_focus ?_
      cases hid : tx.txid env.toSodium with
      | ok txid =>
        have hpriced : Priced env.toSodium ⟨tx, recs.map UTXORecord.amount⟩ txid := ⟨hid, hfee⟩
        exact (post_addValidTx h hpriced).mono (fun _ _ ht ↦ ht) fun _ _ ht ↦ ht.elim
      | error e =>
        cases e with
        | throw e => exact absurd hid (noThrow_txid hsigned e)
        | abort u =>
          rw [Post, MemPool.addValidTx, hid]
          trivial

theorem post_handle_indexed (h : Indexed env.toSodium s.memPool) {event : Event}
    (hp : Paid env.toSodium s event) :
    Post (handle env cfg event) s (fun _ t ↦ Indexed env.toSodium t.memPool)
      (fun _ t ↦ Indexed env.toSodium t.memPool) := by
  cases event with
  | tx tx => exact post_addTx_indexed h tx
  | computation comp => exact h
  | block block mined =>
    refine post_addBlock_pool (P := Indexed env.toSodium) (fun pool txs hpool htxs ↦ ?_) h
      fun amounts hm ↦ ?_
    · exact (post_spendBlock hpool htxs).mono (fun _ _ ht ↦ ht.indexed) fun _ _ ht ↦ ht.elim
    · cases hm
      exact hp

theorem indexed_of_run {wallet : Wallet} (hs : create env cfg wallet = .ok s)
    (hrun : Run env cfg (Paid env.toSodium) s t) : Indexed env.toSodium t.memPool := by
  refine hrun.invariant (I := fun t ↦ Indexed env.toSodium t.memPool) ?_
    fun _ _ h hp ↦ post_handle_indexed h hp
  obtain ⟨genesis, -, rfl⟩ := create_ok hs
  exact indexed_empty

theorem shrunk_of_run (h : Indexed env.toSodium s.memPool) (hrun : Run env cfg Received s t) :
    Shrunk env.toSodium s.memPool t.memPool := by
  refine hrun.invariant (I := fun t ↦ Shrunk env.toSodium s.memPool t.memPool) ⟨h, id⟩
    fun u event hu hr ↦ ?_
  cases event with
  | tx tx => cases hr
  | computation comp => cases hr
  | block block mined =>
    cases hr
    refine post_addBlock_pool (P := Shrunk env.toSodium s.memPool) (fun pool txs hpool htxs ↦ ?_) hu
      (by simp)
    exact (post_spendBlock hpool.indexed htxs).mono
      (fun _ _ ht ↦ ⟨ht.indexed, fun hk ↦ hpool.storage (ht.storage hk)⟩) fun _ _ ht ↦ ht.elim

end History

end FheBlockchain.Chain.PoolHistory
