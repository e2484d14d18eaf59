import FheBlockchain.Store.PoolOrder

namespace FheBlockchain.Store.PoolAssertions

open Core.Transactions Core.Amounts Core.Blocks Pools PoolFacts PoolOrder
open Library.Execution Library.FiniteMap Library.Results

variable {na : Sodium} {pool pool' pool'' : MemPool} {p q : PooledTx} {txid : Bytes}
  {objects : PooledTx → Prop}

def refs (pool : MemPool) (hash : Bytes) : List PooledTx := (pool.utxoRef.lookup hash).getD []

theorem mem_refs {h : Bytes} :
    q ∈ refs pool h ↔ ∃ ps, pool.utxoRef.lookup h = some ps ∧ q ∈ ps := by
  rw [refs]
  cases pool.utxoRef.lookup h <;> simp

def shares (na : Sodium) (pool : MemPool) (hash txid : Bytes) : ℕ :=
  (refs pool hash).countP fun q ↦ idOf na q = txid

/-- Every stored transaction is listed under an output hash at least as often as
it has it, once for each output. -/
structure Shared (na : Sodium) (objects : PooledTx → Prop) (pool : MemPool) : Prop where
  known : ∀ {txid p}, pool.txStorage.lookup txid = some p → objects p
  indexed : Indexed na pool
  covered : ∀ {txid p}, pool.txStorage.lookup txid = some p →
    ∀ h, (hashesOf na p).count h ≤ shares na pool h txid

def OutputsAgree (na : Sodium) (objects : PooledTx → Prop) : Prop :=
  ∀ {p q txid}, objects p → objects q → p.tx.txid na = .ok txid → q.tx.txid na = .ok txid →
    p.tx.outputs = q.tx.outputs

theorem Shared.outputs_eq (h : Shared na objects pool) (hagree : OutputsAgree na objects)
    (hp : objects p) (hid : p.tx.txid na = .ok txid) (hq : pool.txStorage.lookup txid = some q) :
    q.tx.outputs = p.tx.outputs :=
  hagree (h.known hq) hp (h.indexed.stored hq).1.txid_eq hid

theorem shared_empty : Shared na objects .empty where
  known h := by simp [MemPool.empty] at h
  indexed := indexed_empty
  covered h := by simp [MemPool.empty] at h

section Adding

theorem refs_refer (h : Bytes) (outp : TransactionOutput) :
    refs (MemPool.refer p (MemPool.outputHash na outp) pool) h =
      refs pool h ++ List.replicate ([MemPool.outputHash na outp].count h) p := by
  simp only [refs, MemPool.refer, lookup_insert_ite, List.count_singleton, beq_iff_eq]
  by_cases he : h = MemPool.outputHash na outp
  · subst he
    simp
  · simp [he, Ne.symm he]

theorem refs_referAll (h : Bytes) (outputs : List TransactionOutput) :
    refs (outputs.foldl (fun pool outp ↦ MemPool.refer p (MemPool.outputHash na outp) pool) pool) h =
      refs pool h ++ List.replicate ((outputs.map (MemPool.outputHash na)).count h) p := by
  induction outputs generalizing pool with
  | nil => simp
  | cons outp outputs ih =>
    rw [List.foldl_cons, ih, refs_refer, List.append_assoc, List.replicate_append_replicate,
      ← List.count_append]
    rfl

theorem addValidTx_run (hpool : Shared na objects pool) (hobj : objects p) (hp : Priced na p txid) :
    ∃ b pool', MemPool.addValidTx na p pool = .ok b pool' ∧ Shared na objects pool' := by
  have hpost := post_addValidTx hpool.indexed hp
  obtain ⟨fee, hfee⟩ := hp.fee_ok
  rw [MemPool.addValidTx, hp.txid_eq, hfee, run_bind_ofExcept_ok, run_bind_get]
  rw [MemPool.addValidTx, hp.txid_eq, hfee, Post, run_bind_ofExcept_ok, run_bind_get] at hpost
  by_cases hin : (pool.txStorage.lookup txid).isSome
  · rw [if_pos hin]
    exact ⟨false, pool, rfl, hpool⟩
  rw [if_neg hin] at hpost ⊢
  let stored : MemPool := { pool with
    txStorage := pool.txStorage.insert txid p
    txSet := MemPool.setInsert (MemPool.concatTxidFeePair txid fee) pool.txSet }
  have hlisted : Listed na p p.tx.outputs stored _ := listed_all p p.tx.outputs stored
  refine ⟨true, _, rfl, fun {k q} hq ↦ ?_, hpost, fun {k q} hq h ↦ ?_⟩
  · change (p.tx.outputs.foldl _ stored).txStorage.lookup k = some q at hq
    rw [hlisted.storage, lookup_insert_ite] at hq
    split_ifs at hq
    · exact Option.some.inj hq ▸ hobj
    · exact hpool.known hq
  have hrefs := @refs_referAll na stored p h p.tx.outputs
  change (p.tx.outputs.foldl _ stored).txStorage.lookup k = some q at hq
  change _ ≤ (refs (p.tx.outputs.foldl _ stored) h).countP _
  rw [hrefs, List.countP_append]
  rw [hlisted.storage, lookup_insert_ite] at hq
  split_ifs at hq with he
  · cases hq
    subst he
    simp [hashesOf, hp.idOf_eq, List.countP_replicate]
  · exact Nat.le_add_right_of_le (hpool.covered hq h)

end Adding

section Spending

theorem Shared.of_removed {ids hashes : List Bytes} (hpool : Shared na objects pool)
    (h : Removed ids hashes pool pool') (hindexed : Indexed na pool')
    (hids : ∀ x ∈ hashes, ∀ q ∈ refs pool x, idOf na q ∈ ids) : Shared na objects pool' := by
  refine ⟨fun hp ↦ hpool.known (h.storage_some hp).2, hindexed, fun {txid p} hp x ↦ ?_⟩
  obtain ⟨hkeep, hold⟩ := h.storage_some hp
  obtain ⟨hpriced, hrefs⟩ := hpool.indexed.stored hold
  by_cases hx : x ∈ hashesOf na p
  · have hkept : x ∉ hashes := by
      intro hgone
      refine hkeep ?_
      have := hids x hgone p (mem_refs.mpr (hrefs x hx))
      rwa [hpriced.idOf_eq] at this
    have hsame : refs pool' x = refs pool x := by rw [refs, h.refs, if_neg hkept, refs]
    rw [shares, hsame]
    exact hpool.covered hold x
  · rw [List.count_eq_zero_of_not_mem hx]
    exact Nat.zero_le _

theorem spendTx_shared (hpool : Shared na objects pool) (hp : Priced na p txid)
    (hsame : ∀ q, pool.txStorage.lookup txid = some q → q.tx.outputs = p.tx.outputs) :
    (((pool.txStorage.lookup txid).isSome → (hashesOf na p).Nodup) ∧
      ∃ b pool', MemPool.spendTx na p pool = .ok b pool' ∧ Shared na objects pool') ∨
    (¬ ((pool.txStorage.lookup txid).isSome → (hashesOf na p).Nodup) ∧
      ∃ pool', MemPool.spendTx na p pool = .error (.abort .assertion) pool') := by
  cases hq : pool.txStorage.lookup txid with
  | none => exact .inl ⟨by simp, false, pool, spendTx_unknown hp.txid_eq hq, hpool⟩
  | some q =>
    have hrel : Releasable na pool p.tx.outputs ↔ (hashesOf na p).Nodup := by
      refine ⟨fun hr ↦ hr.1, fun hnd ↦ ⟨hnd, fun outp houtp ↦ ?_⟩⟩
      obtain ⟨ps, hps, -⟩ := (hpool.indexed.stored hq).2 _ (by
        rw [hashesOf, hsame q hq]
        exact List.mem_map_of_mem houtp)
      rw [hps]
      rfl
    rcases spendTx_run hp hpool.indexed (by simp [hq]) with
      ⟨hr, pool', hok, hrem, hindexed⟩ | ⟨hr, herr⟩
    · refine .inl ⟨fun _ ↦ hrel.mp hr, true, pool', hok, hpool.of_removed hrem hindexed ?_⟩
      intro x hx q hq
      obtain ⟨outp, houtp, rfl⟩ := List.mem_map.mp hx
      refine List.mem_cons_of_mem _ (List.mem_flatMap.mpr ⟨outp, houtp, ?_⟩)
      exact List.mem_map_of_mem hq
    · exact .inr ⟨fun h ↦ hr (hrel.mpr (h rfl)), herr⟩

end Spending

section Removing

/-- One pool is the other without one entry of a transaction for each of the
given hashes. -/
structure Unlisted (na : Sodium) (txid : Bytes) (hashes : List Bytes) (pool pool' : MemPool) :
    Prop where
  storage : pool'.txStorage = pool.txStorage
  gone : ∀ h, ∃ qs, (∀ q ∈ qs, idOf na q = txid) ∧ qs.length = hashes.count h ∧
    (refs pool h).Perm (qs ++ refs pool' h)

namespace Unlisted

variable {hashes hashes' : List Bytes} {h : Bytes}

theorem refl (txid : Bytes) (pool : MemPool) : Unlisted na txid [] pool pool :=
  ⟨rfl, fun _ ↦ ⟨[], by simp, rfl, .refl _⟩⟩

theorem trans (h : Unlisted na txid hashes pool pool') (h' : Unlisted na txid hashes' pool' pool'') :
    Unlisted na txid (hashes ++ hashes') pool pool'' := by
  refine ⟨h'.storage.trans h.storage, fun x ↦ ?_⟩
  obtain ⟨qs, hqs, hlen, hperm⟩ := h.gone x
  obtain ⟨qs', hqs', hlen', hperm'⟩ := h'.gone x
  refine ⟨qs ++ qs', fun q hq ↦ ?_, by simp [hlen, hlen'], ?_⟩
  · exact (List.mem_append.mp hq).elim (hqs q) (hqs' q)
  · rw [List.append_assoc]
    exact hperm.trans (hperm'.append_left qs)

theorem mem_of_mem (hun : Unlisted na txid hashes pool pool') (hq : q ∈ refs pool' h) :
    q ∈ refs pool h := by
  obtain ⟨qs, -, -, hperm⟩ := hun.gone h
  exact hperm.mem_iff.mpr (List.mem_append_right qs hq)

theorem mem_of_ne (hun : Unlisted na txid hashes pool pool') (hne : idOf na q ≠ txid)
    (hq : q ∈ refs pool h) : q ∈ refs pool' h := by
  obtain ⟨qs, hqs, -, hperm⟩ := hun.gone h
  exact (List.mem_append.mp (hperm.mem_iff.mp hq)).resolve_left fun hmem ↦ hne (hqs q hmem)

theorem shares_eq (hun : Unlisted na txid hashes pool pool') (h id : Bytes) :
    shares na pool h id = (if id = txid then hashes.count h else 0) + shares na pool' h id := by
  obtain ⟨qs, hqs, hlen, hperm⟩ := hun.gone h
  rw [shares, hperm.countP_eq, List.countP_append, shares]
  congr 1
  split_ifs with he
  · rw [← hlen, List.countP_eq_length]
    intro q hq
    simp [hqs q hq, he]
  · rw [List.countP_eq_zero]
    intro q hq
    simp [hqs q hq, Ne.symm he]

end Unlisted

theorem unlist_ok {ps : List PooledTx} (hps : ∀ q ∈ ps, ∃ id, Priced na q id)
    (h : ∃ q ∈ ps, idOf na q = txid) :
    ∃ q qs, MemPool.unlist na txid ps = .ok qs ∧ idOf na q = txid ∧ ps.Perm (q :: qs) := by
  induction ps with
  | nil => simp at h
  | cons r ps ih =>
    obtain ⟨id, hr⟩ := hps r (by simp)
    rw [MemPool.unlist, hr.txid_eq]
    by_cases he : id = txid
    · exact ⟨r, ps, by simp [he, bind, Except.bind, pure, Except.pure], hr.idOf_eq.trans he, .refl _⟩
    · have htail : ∃ q ∈ ps, idOf na q = txid := by
        obtain ⟨q, hq, hid⟩ := h
        rcases List.mem_cons.mp hq with rfl | hq
        · exact absurd (hr.idOf_eq.symm.trans hid) he
        · exact ⟨q, hq, hid⟩
      obtain ⟨q, qs, hrun, hid, hperm⟩ := ih (fun q hq ↦ hps q (by simp [hq])) htail
      refine ⟨q, r :: qs, ?_, hid, (hperm.cons r).trans (.swap q r qs)⟩
      simp [he, hrun, bind, Except.bind, pure, Except.pure]

theorem unlisted_one {x : Bytes} {ref : Finmap fun _ : Bytes ↦ List PooledTx}
    (hother : ∀ y, x ≠ y → ref.lookup y = pool.utxoRef.lookup y) (hq : idOf na q = txid)
    (hperm : (refs pool x).Perm (q :: (ref.lookup x).getD [])) :
    Unlisted na txid [x] pool { pool with utxoRef := ref } := by
  refine ⟨rfl, fun y ↦ ?_⟩
  by_cases he : x = y
  · subst he
    exact ⟨[q], by simpa using hq, by simp, hperm⟩
  · refine ⟨[], by simp, by simp [he], ?_⟩
    rw [refs, refs, hother y he, List.nil_append]

/-- The entry that is taken away when a record has one entry only is not looked
at, so it has to be known to be the right one. -/
theorem unlistOutput_ok {outp : TransactionOutput}
    (hlisted : ∀ q ∈ refs pool (MemPool.outputHash na outp), ∃ id, Priced na q id)
    (h : ∃ q ∈ refs pool (MemPool.outputHash na outp), idOf na q = txid) :
    ∃ pool', MemPool.unlistOutput na txid outp pool = .ok () pool' ∧
      Unlisted na txid [MemPool.outputHash na outp] pool pool' := by
  have herase (y : Bytes) (hne : MemPool.outputHash na outp ≠ y) :
      (pool.utxoRef.erase (MemPool.outputHash na outp)).lookup y = pool.utxoRef.lookup y := by
    rw [lookup_erase_ite, if_neg hne.symm]
  have hinsert (record : List PooledTx) (y : Bytes) (hne : MemPool.outputHash na outp ≠ y) :
      (pool.utxoRef.insert (MemPool.outputHash na outp) record).lookup y = pool.utxoRef.lookup y := by
    rw [lookup_insert_ite, if_neg hne.symm]
  rw [MemPool.unlistOutput, run_bind_get]
  rw [refs] at hlisted h
  cases hps : pool.utxoRef.lookup (MemPool.outputHash na outp) with
  | none => simp [hps] at h
  | some record =>
    simp only [hps, Option.getD_some] at hlisted h
    match record with
    | [] => simp at h
    | [q] =>
      refine ⟨_, rfl, unlisted_one herase (by simpa using h) ?_⟩
      simp [refs, hps]
    | q₁ :: q₂ :: rest =>
      obtain ⟨q, qs, hrun, hid, hperm⟩ := unlist_ok hlisted h
      refine ⟨_, ?_, unlisted_one (hinsert qs) hid ?_⟩
      · change (Exec.ofExcept (MemPool.unlist na txid (q₁ :: q₂ :: rest)) >>= _) pool = _
        rw [hrun]
        rfl
      · simpa [refs, hps] using hperm

theorem unlistOutputs_ok {outputs : List TransactionOutput}
    (hlisted : ∀ h, ∀ q ∈ refs pool h, ∃ id, Priced na q id)
    (hshares : ∀ h, (outputs.map (MemPool.outputHash na)).count h ≤ shares na pool h txid) :
    ∃ pool', outputs.forM (MemPool.unlistOutput na txid) pool = .ok () pool' ∧
      Unlisted na txid (outputs.map (MemPool.outputHash na)) pool pool' := by
  induction outputs generalizing pool with
  | nil => exact ⟨pool, rfl, .refl txid pool⟩
  | cons outp outputs ih =>
    have hfirst : ∃ q ∈ refs pool (MemPool.outputHash na outp), idOf na q = txid := by
      have hpos := hshares (MemPool.outputHash na outp)
      rw [List.map_cons, List.count_cons_self] at hpos
      obtain ⟨q, hq, hid⟩ := List.countP_pos_iff.mp (Nat.lt_of_lt_of_le (Nat.succ_pos _) hpos)
      exact ⟨q, hq, of_decide_eq_true hid⟩
    obtain ⟨mid, hmid, hun⟩ := unlistOutput_ok (hlisted _) hfirst
    obtain ⟨pool', hrun, hrest⟩ := ih (fun h q hq ↦ hlisted h q (hun.mem_of_mem hq)) fun h ↦ by
      have hall := hshares h
      rw [hun.shares_eq, if_pos rfl, List.map_cons, List.count_cons] at hall
      rw [List.count_singleton] at hall
      omega
    refine ⟨pool', ?_, hun.trans hrest⟩
    rw [forM_cons, hmid]
    exact hrun

theorem removeTx_run (hpool : Shared na objects pool) (hp : Priced na p txid)
    (hsame : ∀ q, pool.txStorage.lookup txid = some q → q.tx.outputs = p.tx.outputs) :
    ∃ b pool', MemPool.removeTx na p pool = .ok b pool' ∧ Shared na objects pool' := by
  rw [MemPool.removeTx, hp.txid_eq, run_bind_ofExcept_ok, run_bind_get]
  cases hq : pool.txStorage.lookup txid with
  | none => exact ⟨false, pool, rfl, hpool⟩
  | some q =>
    obtain ⟨mid, hmid, hrem⟩ := evict_ok hp pool
    have hrefs (h : Bytes) : refs mid h = refs pool h := by
      rw [refs, hrem.refs, if_neg List.not_mem_nil, refs]
    have hlisted (h : Bytes) : ∀ q ∈ refs mid h, ∃ id, Priced na q id := by
      intro q hq
      rw [hrefs] at hq
      obtain ⟨ps, hps, hq⟩ := mem_refs.mp hq
      exact hpool.indexed.listed hps hq
    obtain ⟨pool', hrun, hun⟩ := @unlistOutputs_ok na mid txid p.tx.outputs hlisted fun h ↦ by
      rw [shares, hrefs, ← hsame q hq]
      exact hpool.covered hq h
    have hstored {k : Bytes} {r : PooledTx} (hr : pool'.txStorage.lookup k = some r) :
        k ∉ [txid] ∧ pool.txStorage.lookup k = some r := by
      rw [hun.storage] at hr
      exact hrem.storage_some hr
    refine ⟨true, pool', ?_, fun hr ↦ hpool.known (hstored hr).2,
      ⟨fun {k r} hr ↦ ?_, fun hps hr ↦ ?_⟩, fun {k r} hr h ↦ ?_⟩
    · rw [Option.isSome_some, if_pos rfl, run_bind_of_ok hmid, run_bind_of_ok hrun]
      rfl
    · obtain ⟨hne, hold⟩ := hstored hr
      obtain ⟨hpriced, hlist⟩ := hpool.indexed.stored hold
      refine ⟨hpriced, fun h hh ↦ mem_refs.mp (hun.mem_of_ne ?_ ?_)⟩
      · rw [hpriced.idOf_eq]
        simpa using hne
      · rw [hrefs]
        exact mem_refs.mpr (hlist h hh)
    · exact hlisted _ _ (hun.mem_of_mem (mem_refs.mpr ⟨_, hps, hr⟩))
    · obtain ⟨hne, hold⟩ := hstored hr
      have heq := hun.shares_eq h k
      rw [if_neg (by simpa using hne), Nat.zero_add] at heq
      rw [← heq, shares, hrefs]
      exact hpool.covered hold h

end Removing

section Calls

/-- Each transaction that is still pooled at its turn has no two outputs of one
hash, so it does not pay the same amount to the same key twice. -/
def SpendsApart (na : Sodium) : MemPool → List PooledTx → Prop
  | _, [] => True
  | pool, p :: ps => ((pool.txStorage.lookup (idOf na p)).isSome → (hashesOf na p).Nodup) ∧
    ∀ pool', spendTxs na [p] pool = .ok () pool' → SpendsApart na pool' ps

instance decidableSpendsApart (na : Sodium) :
    ∀ (pool : MemPool) (ps : List PooledTx), Decidable (SpendsApart na pool ps)
  | _, [] => .isTrue trivial
  | pool, p :: ps =>
    have : DecidablePred fun pool' ↦ SpendsApart na pool' ps :=
      fun pool' ↦ decidableSpendsApart na pool' ps
    inferInstanceAs (Decidable (((pool.txStorage.lookup (idOf na p)).isSome → (hashesOf na p).Nodup) ∧
      ∀ pool', spendTxs na [p] pool = .ok () pool' → SpendsApart na pool' ps))

def spentBy : Call → List PooledTx
  | .spendTx p => [p]
  | .spendBlock txs => txs.tail
  | .addValidTx _ | .removeTx _ | .addBlock _ => []

def CallsApart (na : Sodium) : MemPool → List Call → Prop
  | _, [] => True
  | pool, call :: calls => SpendsApart na pool (spentBy call) ∧
    ∀ pool', perform na call pool = .ok () pool' → CallsApart na pool' calls

instance decidableCallsApart (na : Sodium) :
    ∀ (pool : MemPool) (calls : List Call), Decidable (CallsApart na pool calls)
  | _, [] => .isTrue trivial
  | pool, call :: calls =>
    have : DecidablePred fun pool' ↦ CallsApart na pool' calls :=
      fun pool' ↦ decidableCallsApart na pool' calls
    inferInstanceAs (Decidable (SpendsApart na pool (spentBy call) ∧
      ∀ pool', perform na call pool = .ok () pool' → CallsApart na pool' calls))

/-- A run returns to a sound pool and meets the condition, or it meets a false
assertion and not the condition. -/
def Decided (na : Sodium) (objects : PooledTx → Prop) (apart : Prop) (x : MemPool.M Unit)
    (pool : MemPool) : Prop :=
  (apart ∧ ∃ pool', x pool = .ok () pool' ∧ Shared na objects pool') ∨
    (¬ apart ∧ ∃ pool', x pool = .error (.abort .assertion) pool')

variable (hagree : OutputsAgree na objects)

include hagree

theorem spendTxs_decided {ps : List PooledTx} (hpool : Shared na objects pool)
    (hps : ∀ p ∈ ps, objects p ∧ ∃ txid, Priced na p txid) :
    Decided na objects (SpendsApart na pool ps) (spendTxs na ps) pool := by
  induction ps generalizing pool with
  | nil => exact .inl ⟨trivial, pool, rfl, hpool⟩
  | cons p ps ih =>
    obtain ⟨hobj, txid, hp⟩ := hps p (by simp)
    have hrest := fun q hq ↦ hps q (List.mem_cons_of_mem p hq)
    rcases spendTx_shared hpool hp fun q hq ↦ hpool.outputs_eq hagree hobj hp.txid_eq hq with
      ⟨hnd, b, mid, hok, hmid⟩ | ⟨hnd, pool', herr⟩
    · have hone : spendTxs na [p] pool = .ok () mid := spendTxs_cons [] hok
      rw [Decided, spendTxs_cons ps hok, SpendsApart, hp.idOf_eq]
      have hiff : (((pool.txStorage.lookup txid).isSome → (hashesOf na p).Nodup) ∧
          ∀ pool', spendTxs na [p] pool = .ok () pool' → SpendsApart na pool' ps) ↔
          SpendsApart na mid ps := by
        refine ⟨fun h ↦ h.2 mid hone, fun h ↦ ⟨hnd, fun pool' hrun ↦ ?_⟩⟩
        rw [hone] at hrun
        cases hrun
        exact h
      rw [hiff]
      exact ih hmid hrest
    · refine .inr ⟨fun h ↦ hnd ?_, pool', spendTxs_error herr⟩
      have := h.1
      rwa [hp.idOf_eq] at this

omit hagree in
theorem addTxs_run {ps : List PooledTx} (hpool : Shared na objects pool)
    (hps : ∀ p ∈ ps, objects p ∧ ∃ txid, Priced na p txid) :
    ∃ b pool', MemPool.addTxs na ps pool = .ok b pool' ∧ Shared na objects pool' := by
  induction ps generalizing pool with
  | nil => exact ⟨true, pool, rfl, hpool⟩
  | cons p ps ih =>
    obtain ⟨hobj, txid, hp⟩ := hps p (by simp)
    obtain ⟨b, mid, hok, hmid⟩ := addValidTx_run hpool hobj hp
    rw [MemPool.addTxs, run_bind_of_ok hok]
    cases b with
    | false => exact ⟨false, mid, rfl, hmid⟩
    | true => exact ih hmid fun q hq ↦ hps q (List.mem_cons_of_mem p hq)

theorem perform_decided {call : Call} (hpool : Shared na objects pool)
    (hcall : ∀ p ∈ call.objects, objects p ∧ ∃ txid, Priced na p txid) :
    Decided na objects (SpendsApart na pool (spentBy call)) (perform na call) pool := by
  have hreturns {b : Bool} {pool' : MemPool} {x : MemPool.M Bool} (hrun : x pool = .ok b pool') :
      (do let _ ← x) pool = .ok () pool' := run_bind_of_ok hrun
  cases call with
  | addValidTx p =>
    obtain ⟨hobj, txid, hp⟩ := hcall p List.mem_cons_self
    obtain ⟨b, pool', hok, hpool'⟩ := addValidTx_run hpool hobj hp
    exact .inl ⟨trivial, pool', hreturns hok, hpool'⟩
  | removeTx p =>
    obtain ⟨hobj, txid, hp⟩ := hcall p List.mem_cons_self
    obtain ⟨b, pool', hok, hpool'⟩ :=
      removeTx_run hpool hp fun q hq ↦ hpool.outputs_eq hagree hobj hp.txid_eq hq
    exact .inl ⟨trivial, pool', hreturns hok, hpool'⟩
  | addBlock txs =>
    obtain ⟨b, pool', hok, hpool'⟩ := addTxs_run hpool hcall
    exact .inl ⟨trivial, pool', hreturns hok, hpool'⟩
  | spendTx p =>
    have hone : spendTxs na [p] pool = perform na (.spendTx p) pool := by
      rw [spendTxs, forM_cons, perform]
      cases (do let _ ← MemPool.spendTx na p : MemPool.M Unit) pool <;> rfl
    have hdecided := spendTxs_decided hagree hpool hcall
    change Decided na objects _ (spendTxs na [p]) pool at hdecided
    rw [Decided, hone] at hdecided
    exact hdecided
  | spendBlock txs => exact spendTxs_decided hagree hpool hcall

theorem calls_decided {calls : List Call} (hpool : Shared na objects pool)
    (hcalls : ∀ call ∈ calls, ∀ p ∈ call.objects, objects p ∧ ∃ txid, Priced na p txid) :
    Decided na objects (CallsApart na pool calls) (calls.forM (perform na)) pool := by
  induction calls generalizing pool with
  | nil => exact .inl ⟨trivial, pool, rfl, hpool⟩
  | cons call calls ih =>
    rcases perform_decided hagree hpool (hcalls call (by simp)) with
      ⟨hapart, mid, hok, hmid⟩ | ⟨hapart, pool', herr⟩
    · have hiff : CallsApart na pool (call :: calls) ↔ CallsApart na mid calls := by
        refine ⟨fun h ↦ h.2 mid hok, fun h ↦ ⟨hapart, fun pool' hrun ↦ ?_⟩⟩
        rw [hok] at hrun
        cases hrun
        exact h
      rw [Decided, forM_cons, hok, hiff]
      exact ih hmid fun c hc ↦ hcalls c (List.mem_cons_of_mem call hc)
    · refine .inr ⟨fun h ↦ hapart h.1, pool', ?_⟩
      rw [forM_cons, herr]

omit hagree

/-- In a run of calls with valid transactions none of the assertions of the pool
is false if and only if each transaction that a call spends while it is pooled
has outputs of distinct hashes. -/
theorem assertions_hold_iff {calls : List Call}
    (hvalid : ∀ call ∈ calls, ∀ p ∈ call.objects, ∃ txid, Priced na p txid)
    (hagree : OutputsAgree na fun p ↦ ∃ call ∈ calls, p ∈ call.objects) :
    (∀ pool, calls.forM (perform na) .empty ≠ .error (.abort .assertion) pool) ↔
      CallsApart na .empty calls := by
  have hrun := calls_decided hagree shared_empty fun call hcall p hp ↦
    ⟨⟨call, hcall, hp⟩, hvalid call hcall p hp⟩
  rcases hrun with ⟨hapart, pool', hok, -⟩ | ⟨hapart, pool', herr⟩
  · refine ⟨fun _ ↦ hapart, fun _ pool he ↦ ?_⟩
    rw [hok] at he
    cases he
  · exact ⟨fun h ↦ absurd herr (h pool'), fun h ↦ absurd h hapart⟩

theorem valid_of_isOk {calls : List Call} (h : ∀ p ∈ calls.flatMap Call.objects,
      (p.tx.txid na).isOk = true ∧ p.fee.isOk = true) :
    ∀ call ∈ calls, ∀ p ∈ call.objects, ∃ txid, Priced na p txid :=
  fun call hcall p hp ↦ priced_iff.mpr (h p (List.mem_flatMap.mpr ⟨call, hcall, hp⟩))

theorem outputsAgree_of_forall {calls : List Call}
    (h : ∀ p ∈ calls.flatMap Call.objects, ∀ q ∈ calls.flatMap Call.objects,
      p.tx.txid na = q.tx.txid na → p.tx.outputs = q.tx.outputs) :
    OutputsAgree na fun p ↦ ∃ call ∈ calls, p ∈ call.objects :=
  fun hp hq hidp hidq ↦ h _ (List.mem_flatMap.mpr hp) _ (List.mem_flatMap.mpr hq) (hidp.trans hidq.symm)

theorem assertions_hold_sample : ¬ ∃ pool,
    sampleCalls.forM (perform sampleSodium) .empty = .error (.abort .assertion) pool := by
  rintro ⟨pool, hrun⟩
  have hagree : OutputsAgree sampleSodium fun p ↦ ∃ call ∈ sampleCalls, p ∈ call.objects :=
    outputsAgree_of_forall (by decide +kernel)
  exact (assertions_hold_iff (valid_of_isOk (by decide +kernel)) hagree).mpr (by decide +kernel)
    pool hrun

def repeatedPayment : List Call :=
  let p : PooledTx := { tx := paying [3, 3], inAmounts := [10] }
  [.addValidTx p, .spendBlock [{ tx := paying [0], inAmounts := [10] }, p]]

theorem repeatedPayment_asserts : ¬ ∀ (na : Sodium) (calls : List Call),
    (∀ call ∈ calls, ∀ p ∈ call.objects, ∃ txid, Priced na p txid) →
    OutputsAgree na (fun p ↦ ∃ call ∈ calls, p ∈ call.objects) →
    ∀ pool, calls.forM (perform na) .empty ≠ .error (.abort .assertion) pool := by
  intro h
  have hnever := h sampleSodium repeatedPayment (valid_of_isOk (by decide +kernel))
    (outputsAgree_of_forall (by decide +kernel))
  have hrun : fails (repeatedPayment.forM (perform sampleSodium)) .empty (.abort .assertion) =
      true := by decide +kernel
  obtain ⟨pool, herr⟩ := fails_iff.mp hrun
  exact hnever pool herr

end Calls

end FheBlockchain.Store.PoolAssertions
