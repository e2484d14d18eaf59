import FheBlockchain.Store.PoolOrder

namespace FheBlockchain.Store.PoolConflicts

open Core.Transactions Core.Amounts Pools PoolFacts
open Library.Execution Library.FiniteMap Library.Results

variable {na : Sodium} {pool pool' : MemPool} {p q : PooledTx} {txid : Bytes}

def SharesInput (p q : PooledTx) : Prop :=
  ∃ i ∈ p.tx.inputs, ∃ j ∈ q.tx.inputs, i.txid = j.txid ∧ i.vout = j.vout

/-- The pool has lost the transactions of a block, its coinbase apart, and those
that spend an output which the block spends. It has lost no others. -/
def Exact (na : Sodium) (pool : MemPool) (txs : List PooledTx) (pool' : MemPool) : Prop :=
  ∀ txid q, pool'.txStorage.lookup txid = some q ↔ pool.txStorage.lookup txid = some q ∧
    (∀ p ∈ txs.tail, p.tx.txid na ≠ .ok txid) ∧ ∀ p ∈ txs.tail, ¬ SharesInput p q

/-- The transactions of a block that the pool still holds at their turn, if each
of them takes along what is listed under its outputs. -/
def leaders (na : Sodium) (pool : MemPool) : List Bytes → List PooledTx → List PooledTx
  | _, [] => []
  | gone, p :: ps =>
    if (pool.txStorage.lookup (idOf na p)).isSome ∧ idOf na p ∉ gone then
      p :: leaders na pool (gone ++ removedBy na pool p) ps
    else leaders na pool gone ps

def blockLeaders (na : Sodium) (pool : MemPool) (txs : List PooledTx) : List PooledTx :=
  leaders na pool [] txs.tail

section Run

variable {gone erased : List Bytes} {ps : List PooledTx}

/-- Nothing keeps the loop over a block from its end. -/
structure Ready (na : Sodium) (pool : MemPool) (gone erased : List Bytes) (ps : List PooledTx) :
    Prop where
  ids : ∀ p ∈ ps, ∃ txid, p.tx.txid na = .ok txid
  fees : ∀ p ∈ leaders na pool gone ps, ∃ fee, p.fee = .ok fee
  apart : ((leaders na pool gone ps).flatMap (hashesOf na)).Nodup
  listed : ∀ h ∈ (leaders na pool gone ps).flatMap (hashesOf na),
    h ∉ erased ∧ (pool.utxoRef.lookup h).isSome

theorem leaders_skip (ps : List PooledTx)
    (h : ¬ ((pool.txStorage.lookup (idOf na p)).isSome ∧ idOf na p ∉ gone)) :
    leaders na pool gone (p :: ps) = leaders na pool gone ps := by
  rw [leaders, if_neg h]

theorem leaders_lead (ps : List PooledTx)
    (h : (pool.txStorage.lookup (idOf na p)).isSome ∧ idOf na p ∉ gone) :
    leaders na pool gone (p :: ps) = p :: leaders na pool (gone ++ removedBy na pool p) ps := by
  rw [leaders, if_pos h]

theorem ready_skip (hid : p.tx.txid na = .ok txid)
    (h : ¬ ((pool.txStorage.lookup (idOf na p)).isSome ∧ idOf na p ∉ gone)) :
    Ready na pool gone erased (p :: ps) ↔ Ready na pool gone erased ps := by
  have hskip := leaders_skip ps h
  constructor
  · intro hr
    obtain ⟨hids, hfees, hapart, hlisted⟩ := hr
    rw [hskip] at hfees hapart hlisted
    exact ⟨fun q hq ↦ hids q (List.mem_cons_of_mem p hq), hfees, hapart, hlisted⟩
  · intro hr
    obtain ⟨hids, hfees, hapart, hlisted⟩ := hr
    rw [← hskip] at hfees hapart hlisted
    refine ⟨fun q hq ↦ ?_, hfees, hapart, hlisted⟩
    rcases List.mem_cons.mp hq with rfl | hq
    · exact ⟨txid, hid⟩
    · exact hids q hq

def Clear (na : Sodium) (pool : MemPool) (erased : List Bytes) (p : PooledTx) : Prop :=
  (hashesOf na p).Nodup ∧ ∀ h ∈ hashesOf na p, h ∉ erased ∧ (pool.utxoRef.lookup h).isSome

theorem ready_lead (h : (pool.txStorage.lookup (idOf na p)).isSome ∧ idOf na p ∉ gone) :
    Ready na pool gone erased (p :: ps) ↔ (∃ txid, Priced na p txid) ∧ Clear na pool erased p ∧
      Ready na pool (gone ++ removedBy na pool p) (erased ++ hashesOf na p) ps := by
  have hlead := leaders_lead ps h
  constructor
  · intro hr
    obtain ⟨hids, hfees, hapart, hlisted⟩ := hr
    rw [hlead] at hfees hapart hlisted
    rw [List.flatMap_cons] at hapart hlisted
    obtain ⟨hown, hrest, hdisj⟩ := List.nodup_append.mp hapart
    obtain ⟨txid, hid⟩ := hids p List.mem_cons_self
    refine ⟨⟨txid, hid, hfees p List.mem_cons_self⟩,
      ⟨hown, fun h hh ↦ hlisted h (List.mem_append_left _ hh)⟩,
      fun q hq ↦ hids q (List.mem_cons_of_mem p hq),
      fun q hq ↦ hfees q (List.mem_cons_of_mem p hq), hrest, fun h hh ↦ ?_⟩
    obtain ⟨hnot, hsome⟩ := hlisted h (List.mem_append_right _ hh)
    refine ⟨fun hmem ↦ ?_, hsome⟩
    rcases List.mem_append.mp hmem with hmem | hmem
    · exact hnot hmem
    · exact hdisj h hmem h hh rfl
  · intro hr
    obtain ⟨⟨txid, hid, hfee⟩, ⟨hown, hclear⟩, hids, hfees, hapart, hlisted⟩ := hr
    refine ⟨fun q hq ↦ ?_, fun q hq ↦ ?_, ?_, fun h hh ↦ ?_⟩
    · rcases List.mem_cons.mp hq with rfl | hq
      · exact ⟨txid, hid⟩
      · exact hids q hq
    · rw [hlead] at hq
      rcases List.mem_cons.mp hq with rfl | hq
      · exact hfee
      · exact hfees q hq
    · rw [hlead, List.flatMap_cons]
      refine List.nodup_append.mpr ⟨hown, hapart, fun x hx y hy he ↦ ?_⟩
      exact (hlisted y hy).1 (List.mem_append_right _ (he ▸ hx))
    · rw [hlead, List.flatMap_cons] at hh
      rcases List.mem_append.mp hh with hh | hh
      · exact hclear h hh
      · exact ⟨fun hmem ↦ (hlisted h hh).1 (List.mem_append_left _ hmem), (hlisted h hh).2⟩

def Listing (na : Sodium) (pool : MemPool) : Prop :=
  ∀ h ps p, pool.utxoRef.lookup h = some ps → p ∈ ps → ∃ txid, Priced na p txid

theorem releasable_iff (h : Removed gone erased pool pool') :
    Releasable na pool' p.tx.outputs ↔ Clear na pool erased p := by
  have hlookup (x : Bytes) : (pool'.utxoRef.lookup x).isSome ↔
      x ∉ erased ∧ (pool.utxoRef.lookup x).isSome := by
    rw [h.refs]
    split_ifs with he <;> simp [he]
  simp only [Releasable, Clear, hashesOf, hlookup, List.forall_mem_map]

theorem spendTx_error {e : Failure} (h : p.tx.txid na = .error e) :
    MemPool.spendTx na p pool = .error e pool := by
  rw [MemPool.spendTx, h]
  rfl

theorem spendTx_unpriced {e : Failure} (hid : p.tx.txid na = .ok txid) (hfee : p.fee = .error e)
    (h : (pool.txStorage.lookup txid).isSome) :
    ∃ pool', MemPool.spendTx na p pool = .error e pool' := by
  refine ⟨{ pool with txStorage := pool.txStorage.erase txid }, ?_⟩
  rw [MemPool.spendTx, hid, run_bind_ofExcept_ok, run_bind_get, if_pos h, MemPool.evict, hid, hfee]
  rfl

/-- The loop over the transactions of a block ends as soon as it is not ready,
and takes along what is listed under the outputs of the leaders. -/
theorem spendTxs_run (ps : List PooledTx) (hpool : Listing na pool)
    (h : Removed gone erased pool pool') :
    (Ready na pool gone erased ps ∧ ∃ last, spendTxs na ps pool' = .ok () last ∧
      Removed (gone ++ (leaders na pool gone ps).flatMap (removedBy na pool))
        (erased ++ (leaders na pool gone ps).flatMap (hashesOf na)) pool last) ∨
    (¬ Ready na pool gone erased ps ∧ ∃ e last, spendTxs na ps pool' = .error e last) := by
  induction ps generalizing gone erased pool' with
  | nil =>
    refine .inl ⟨⟨by simp, by simp [leaders], by simp [leaders], by simp [leaders]⟩, pool', rfl, ?_⟩
    simpa [leaders] using h
  | cons p ps ih =>
    cases hid : p.tx.txid na with
    | error e =>
      refine .inr ⟨fun hr ↦ ?_, e, pool', spendTxs_error (spendTx_error hid)⟩
      obtain ⟨txid, hok⟩ := hr.ids p List.mem_cons_self
      rw [hid] at hok
      exact absurd hok (by simp)
    | ok txid =>
      have hidOf : idOf na p = txid := by
        rw [idOf, hid]
        rfl
      by_cases hin : (pool.txStorage.lookup (idOf na p)).isSome ∧ idOf na p ∉ gone
      · have hstored : (pool'.txStorage.lookup txid).isSome := by
          rw [h.storage, ← hidOf, if_neg hin.2]
          exact hin.1
        rw [ready_lead hin, leaders_lead _ hin]
        cases hfee : p.fee with
        | error e =>
          obtain ⟨last, hlast⟩ := spendTx_unpriced hid hfee hstored
          refine .inr ⟨fun hr ↦ ?_, e, last, spendTxs_error hlast⟩
          obtain ⟨⟨_, _, fee, hok⟩, -⟩ := hr
          rw [hfee] at hok
          exact absurd hok (by simp)
        | ok fee =>
          have hp : Priced na p txid := ⟨hid, fee, hfee⟩
          rcases spendTx_of_listed hp (fun hk hq ↦ hpool _ _ _ (h.refs_some hk).2 hq) hstored with
            ⟨hrel, mid, hmid, hrem⟩ | ⟨hrel, mid, herr⟩
          · have hclear := (releasable_iff h).mp hrel
            have hids : removedBy na pool' p = removedBy na pool p := by
              rw [removedBy, removedBy, releasedIds, releasedIds]
              refine congrArg _ (List.flatMap_congr fun outp houtp ↦ ?_)
              rw [listedIds, listedIds, h.refs, if_neg (hclear.2 _ (List.mem_map_of_mem houtp)).1]
            rw [hids] at hrem
            rw [spendTxs_cons _ hmid, List.flatMap_cons, List.flatMap_cons, ← List.append_assoc,
              ← List.append_assoc]
            rcases ih (h.trans hrem) with ⟨hready, hlast⟩ | ⟨hready, herr⟩
            · exact .inl ⟨⟨⟨txid, hp⟩, hclear, hready⟩, hlast⟩
            · exact .inr ⟨fun hr ↦ hready hr.2.2, herr⟩
          · refine .inr ⟨fun hr ↦ ?_, _, mid, spendTxs_error herr⟩
            exact hrel ((releasable_iff h).mpr hr.2.1)
      · have habsent : pool'.txStorage.lookup txid = none := by
          rw [h.storage, ← hidOf]
          split_ifs with hgone
          · rfl
          · simpa [hgone] using hin
        rw [ready_skip hid hin, leaders_skip _ hin, spendTxs_cons _ (spendTx_unknown hid habsent)]
        exact ih h

end Run

section Reachable

/-- The pools that `add_valid_tx` and `spend_block` lead to, whether they return
or throw. -/
inductive Reachable (na : Sodium) : MemPool → Prop
  | empty : Reachable na .empty
  | addValidTx {pool pool' : MemPool} {p : PooledTx} : Reachable na pool →
      Ends (MemPool.addValidTx na p) pool pool' → Reachable na pool'
  | spendBlock {pool pool' : MemPool} {txs : List PooledTx} : Reachable na pool →
      Ends (MemPool.spendBlock na txs) pool pool' → Reachable na pool'

theorem post_evict_listing (hpool : Listing na pool) :
    Post (MemPool.evict na p) pool (fun _ ↦ Listing na) fun _ ↦ Listing na := by
  refine post_bind_ofExcept (fun txid _ ↦ post_bind_modify.mpr ?_) fun _ _ ↦ hpool
  exact post_bind_ofExcept (fun fee _ ↦ post_modify.mpr hpool) fun _ _ ↦ hpool

theorem post_spendOutput_listing (outp : TransactionOutput) (hpool : Listing na pool) :
    Post (MemPool.spendOutput na outp) pool (fun _ ↦ Listing na) fun _ ↦ Listing na := by
  refine post_bind_get.mpr ?_
  cases pool.utxoRef.lookup (MemPool.outputHash na outp) with
  | none => exact trivial
  | some others =>
    have hloop : Post (others.forM (MemPool.evict na)) pool (fun _ ↦ Listing na)
        fun _ ↦ Listing na := post_forM (fun p _ _ h ↦ post_evict_listing h) hpool
    refine hloop.bind fun _ mid hmid ↦ post_modify.mpr fun h ps p hps hp ↦ ?_
    rw [lookup_erase_ite] at hps
    split_ifs at hps
    exact hmid h ps p hps hp

theorem post_spendTx_listing (hpool : Listing na pool) :
    Post (MemPool.spendTx na p) pool (fun _ ↦ Listing na) fun _ ↦ Listing na := by
  refine post_bind_ofExcept (fun txid _ ↦ post_bind_get.mpr ?_) fun _ _ ↦ hpool
  split_ifs
  · refine (post_evict_listing hpool).bind fun _ mid hmid ↦ ?_
    have hloop : Post (p.tx.outputs.forM (MemPool.spendOutput na)) mid (fun _ ↦ Listing na)
        fun _ ↦ Listing na := post_forM (fun outp _ _ h ↦ post_spendOutput_listing outp h) hmid
    exact hloop.bind fun _ _ h ↦ h
  · exact hpool

theorem post_addValidTx_listing (hpool : Listing na pool) :
    Post (MemPool.addValidTx na p) pool (fun _ ↦ Listing na) fun _ ↦ Listing na := by
  refine post_bind_ofExcept (fun txid hid ↦ post_bind_get.mpr ?_) fun _ _ ↦ hpool
  split_ifs
  · exact hpool
  refine post_bind_ofExcept (fun fee hfee ↦ ?_) fun _ _ ↦ hpool
  let stored : MemPool := { pool with
    txStorage := pool.txStorage.insert txid p
    txSet := MemPool.setInsert (MemPool.concatTxidFeePair txid fee) pool.txSet }
  have hlisted : Listed na p p.tx.outputs stored _ := listed_all p p.tx.outputs stored
  intro h ps q hps hq
  rcases hlisted.other hps hq with rfl | ⟨ps', hps', hq'⟩
  · exact ⟨txid, hid, fee, hfee⟩
  · exact hpool h ps' q hps' hq'

theorem listing_of_reachable (h : Reachable na pool) : Listing na pool := by
  induction h with
  | empty => exact fun h ps p hps _ ↦ absurd hps (by simp [MemPool.empty])
  | addValidTx _ hlead ih => exact hlead.of_post (post_addValidTx_listing ih)
  | spendBlock _ hlead ih =>
    refine hlead.of_post (post_forM (fun p _ _ h ↦ ?_) ih)
    exact (post_spendTx_listing h).bind fun _ _ h ↦ h

end Reachable

section Leaders

variable {gone : List Bytes} {ps : List PooledTx}

theorem mem_of_leaders (h : p ∈ leaders na pool gone ps) : p ∈ ps := by
  induction ps generalizing gone with
  | nil => exact h
  | cons q ps ih =>
    rw [leaders] at h
    split_ifs at h
    · rcases List.mem_cons.mp h with rfl | h
      · exact List.mem_cons_self
      · exact List.mem_cons_of_mem q (ih h)
    · exact List.mem_cons_of_mem q (ih h)

theorem gone_of_mem (hp : p ∈ ps) (hstored : (pool.txStorage.lookup (idOf na p)).isSome) :
    idOf na p ∈ gone ++ (leaders na pool gone ps).flatMap (removedBy na pool) := by
  induction ps generalizing gone with
  | nil => exact absurd hp List.not_mem_nil
  | cons q ps ih =>
    by_cases hin : (pool.txStorage.lookup (idOf na q)).isSome ∧ idOf na q ∉ gone
    · rw [leaders_lead _ hin, List.flatMap_cons, ← List.append_assoc]
      rcases List.mem_cons.mp hp with rfl | hp
      · refine List.mem_append_left _ (List.mem_append_right _ ?_)
        exact List.mem_cons_self
      · exact ih hp
    · rw [leaders_skip _ hin]
      rcases List.mem_cons.mp hp with rfl | hp
      · refine List.mem_append_left _ ?_
        by_contra hnot
        exact hin ⟨hstored, hnot⟩
      · exact ih hp

end Leaders

section Exactness

variable {txs : List PooledTx}

/-- The loop over the block gets to its end, and what is listed under the outputs
of the leaders is, apart from the block itself, what the block conflicts with. -/
structure Tidy (na : Sodium) (pool : MemPool) (txs : List PooledTx) : Prop where
  ready : Ready na pool [] [] txs.tail
  evicted : ∀ txid q, pool.txStorage.lookup txid = some q →
    (∀ p ∈ txs.tail, p.tx.txid na ≠ .ok txid) →
      ((∃ p ∈ blockLeaders na pool txs, txid ∈ releasedIds na pool p.tx.outputs) ↔
        ∃ p ∈ txs.tail, SharesInput p q)

theorem removed_iff (hids : ∀ p ∈ txs.tail, ∃ txid, p.tx.txid na = .ok txid)
    (hq : pool.txStorage.lookup txid = some q) :
    txid ∈ (blockLeaders na pool txs).flatMap (removedBy na pool) ↔
      (∃ p ∈ txs.tail, p.tx.txid na = .ok txid) ∨
        ∃ p ∈ blockLeaders na pool txs, txid ∈ releasedIds na pool p.tx.outputs := by
  constructor
  · intro h
    obtain ⟨p, hp, hmem⟩ := List.mem_flatMap.mp h
    rcases List.mem_cons.mp hmem with rfl | hmem
    · left
      obtain ⟨txid, hid⟩ := hids p (mem_of_leaders hp)
      refine ⟨p, mem_of_leaders hp, ?_⟩
      rw [idOf, hid]
      rfl
    · exact .inr ⟨p, hp, hmem⟩
  · intro h
    rcases h with ⟨p, hp, hid⟩ | ⟨p, hp, hmem⟩
    · have hidOf : idOf na p = txid := by
        rw [idOf, hid]
        rfl
      have hgone := @gone_of_mem na pool _ [] _ hp (by rw [hidOf, hq]; rfl)
      rwa [hidOf] at hgone
    · exact List.mem_flatMap.mpr ⟨p, hp, List.mem_cons_of_mem _ hmem⟩

/-- `spend_block` takes out what it should just when the lists under outputs
happen to agree with the conflicts of inputs. -/
theorem spendBlock_exact_iff (hpool : Reachable na pool) (txs : List PooledTx) :
    (∃ pool', MemPool.spendBlock na txs pool = .ok () pool' ∧ Exact na pool txs pool') ↔
      Tidy na pool txs := by
  rcases spendTxs_run txs.tail (listing_of_reachable hpool) (.refl pool) with
    ⟨hready, last, hlast, hrem⟩ | ⟨hready, e, last, herr⟩
  · have hstorage (txid : Bytes) : last.txStorage.lookup txid =
        if txid ∈ (blockLeaders na pool txs).flatMap (removedBy na pool) then none
        else pool.txStorage.lookup txid := hrem.storage txid
    constructor
    · intro h
      obtain ⟨pool', hrun, hexact⟩ := h
      cases hlast.symm.trans hrun
      refine ⟨hready, fun txid q hq hnot ↦ ?_⟩
      have hremoved := removed_iff hready.ids hq
      have hiff := hexact txid q
      rw [hstorage] at hiff
      constructor
      · intro hreleased
        by_contra hfree
        rw [if_pos (hremoved.mpr (.inr hreleased))] at hiff
        exact absurd (hiff.mpr ⟨hq, hnot, fun p hp hs ↦ hfree ⟨p, hp, hs⟩⟩) (by simp)
      · intro hshares
        by_contra hkept
        rw [if_neg] at hiff
        · obtain ⟨p, hp, hs⟩ := hshares
          exact (hiff.mp hq).2.2 p hp hs
        · intro hmem
          rcases hremoved.mp hmem with ⟨p, hp, hid⟩ | hreleased
          · exact hnot p hp hid
          · exact hkept hreleased
    · intro h
      refine ⟨last, hlast, fun txid q ↦ ?_⟩
      rw [hstorage]
      constructor
      · intro hq
        split_ifs at hq with hmem
        rw [removed_iff hready.ids hq] at hmem
        have hnot : ∀ p ∈ txs.tail, p.tx.txid na ≠ .ok txid :=
          fun p hp hid ↦ hmem (.inl ⟨p, hp, hid⟩)
        exact ⟨hq, hnot, fun p hp hs ↦ hmem (.inr ((h.evicted txid q hq hnot).mpr ⟨p, hp, hs⟩))⟩
      · intro hq
        obtain ⟨hq, hnot, hfree⟩ := hq
        rw [if_neg, hq]
        rw [removed_iff hready.ids hq]
        intro hmem
        rcases hmem with ⟨p, hp, hid⟩ | hreleased
        · exact hnot p hp hid
        · obtain ⟨p, hp, hs⟩ := (h.evicted txid q hq hnot).mp hreleased
          exact hfree p hp hs
  · constructor
    · intro h
      obtain ⟨pool', hrun, -⟩ := h
      exact absurd (herr.symm.trans hrun) (by simp)
    · exact fun h ↦ absurd h.ready hready

def payment (amount : UInt64) : PooledTx := { tx := paying [amount], inAmounts := [10] }

def pooledPayment : MemPool :=
  match MemPool.addValidTx sampleSodium (payment 3) .empty with
  | .ok _ pool => pool
  | .error _ pool => pool

theorem reachable_payment : Reachable sampleSodium pooledPayment := by
  refine .addValidTx .empty (p := payment 3) (.inl ⟨true, ?_⟩)
  rfl

theorem stored_payment : pooledPayment.txStorage.keys = {idOf sampleSodium (payment 3)} ∧
    pooledPayment.txStorage.lookup (idOf sampleSodium (payment 3)) = some (payment 3) := by
  decide +kernel

instance (p q : PooledTx) : Decidable (SharesInput p q) :=
  inferInstanceAs (Decidable (∃ i ∈ _, _))

instance (gone erased : List Bytes) (ps : List PooledTx) :
    Decidable (Ready na pool gone erased ps) :=
  decidable_of_iff ((∀ p ∈ ps, (p.tx.txid na).isOk = true) ∧
      (∀ p ∈ leaders na pool gone ps, p.fee.isOk = true) ∧
      ((leaders na pool gone ps).flatMap (hashesOf na)).Nodup ∧
      ∀ h ∈ (leaders na pool gone ps).flatMap (hashesOf na),
        h ∉ erased ∧ (pool.utxoRef.lookup h).isSome)
    ⟨fun ⟨hids, hfees, hapart, hlisted⟩ ↦ ⟨fun p hp ↦ isOk_iff.mp (hids p hp),
        fun p hp ↦ isOk_iff.mp (hfees p hp), hapart, hlisted⟩,
      fun h ↦ ⟨fun p hp ↦ isOk_iff.mpr (h.ids p hp), fun p hp ↦ isOk_iff.mpr (h.fees p hp),
        h.apart, h.listed⟩⟩

instance : Decidable (Tidy na pool txs) :=
  decidable_of_iff (Ready na pool [] [] txs.tail ∧ ∀ txid ∈ pool.txStorage.keys,
      ∀ q ∈ pool.txStorage.lookup txid, (∀ p ∈ txs.tail, p.tx.txid na ≠ .ok txid) →
        ((∃ p ∈ blockLeaders na pool txs, txid ∈ releasedIds na pool p.tx.outputs) ↔
          ∃ p ∈ txs.tail, SharesInput p q))
    ⟨fun h ↦ ⟨h.1, fun txid q hq ↦
        h.2 txid (Finmap.mem_keys.mpr (Finmap.mem_of_lookup_eq_some hq)) q hq⟩,
      fun h ↦ ⟨h.ready, fun txid _ q hq ↦ h.evicted txid q hq⟩⟩

def addAll (na : Sodium) : List PooledTx → MemPool → Option MemPool
  | [], pool => some pool
  | p :: ps, pool =>
    match MemPool.addValidTx na p pool with
    | .ok _ pool' => addAll na ps pool'
    | .error _ _ => none

theorem addAll_reachable {ps : List PooledTx} (h : Reachable na pool)
    (hall : addAll na ps pool = some pool') : Reachable na pool' := by
  induction ps generalizing pool with
  | nil =>
    cases hall
    exact h
  | cons p ps ih =>
    rw [addAll] at hall
    split at hall
    next added pool₁ hadd => exact ih (.addValidTx h (.inl ⟨added, hadd⟩)) hall
    next => contradiction

/-- It spends the output that the payments spend, and has an output of one of them. -/
def conflicting : PooledTx := { tx := paying [3, 4], inAmounts := [10] }

def unrelated : PooledTx where
  tx := spending sampleSodium (paying [8]) [5]
  inAmounts := [8]

/-- A block with a pooled payment evicts what conflicts with it and nothing else. -/
theorem spendBlock_exact_payment : ∃ pool pool',
    addAll sampleSodium [payment 3, conflicting, unrelated] .empty = some pool ∧
      MemPool.spendBlock sampleSodium [payment 0, payment 3] pool = .ok () pool' ∧
      pool.txStorage.keys.card = 3 ∧
      pool'.txStorage.keys = {idOf sampleSodium unrelated} ∧
      Exact sampleSodium pool [payment 0, payment 3] pool' := by
  have htest : (addAll sampleSodium [payment 3, conflicting, unrelated] .empty).map (fun pool ↦
      decide (Tidy sampleSodium pool [payment 0, payment 3]) &&
        decide (pool.txStorage.keys.card = 3) &&
        returns (MemPool.spendBlock sampleSodium [payment 0, payment 3]) pool fun _ pool' ↦
          decide (pool'.txStorage.keys = {idOf sampleSodium unrelated})) = some true := by
    decide +kernel
  obtain ⟨pool, hall, htest⟩ := Option.map_eq_some_iff.mp htest
  simp only [Bool.and_eq_true, decide_eq_true_eq] at htest
  obtain ⟨⟨htidy, hcard⟩, hleft⟩ := htest
  obtain ⟨pool', hrun, hexact⟩ :=
    (spendBlock_exact_iff (addAll_reachable .empty hall) _).mpr htidy
  obtain ⟨_, left, hrun', hkeys⟩ := returns_iff.mp hleft
  cases hrun.symm.trans hrun'
  exact ⟨pool, pool', hall, hrun, hcard, of_decide_eq_true hkeys, hexact⟩

/-- A block spends elsewhere the output that a pooled payment spends. -/
theorem conflicting_payment_stays : ¬ ∀ (na : Sodium) (pool : MemPool) (txs : List PooledTx),
    Reachable na pool →
      ∃ pool', MemPool.spendBlock na txs pool = .ok () pool' ∧ Exact na pool txs pool' := by
  intro h
  obtain ⟨pool', hrun, hexact⟩ := h _ _ [payment 0, payment 4] reachable_payment
  have hfour : (payment 4).tx.txid sampleSodium = .ok (idOf sampleSodium (payment 4)) := by
    decide +kernel
  have habsent : pooledPayment.txStorage.lookup (idOf sampleSodium (payment 4)) = none := by
    decide +kernel
  have hspend : MemPool.spendTx sampleSodium (payment 4) pooledPayment = .ok false pooledPayment :=
    spendTx_unknown hfour habsent
  cases (spendTxs_cons [] hspend).symm.trans hrun
  have hkept := ((hexact _ _).mp stored_payment.2).2.2 (payment 4) List.mem_cons_self
  exact hkept ⟨_, List.mem_cons_self, _, List.mem_cons_self, rfl, rfl⟩

end Exactness

end FheBlockchain.Store.PoolConflicts
