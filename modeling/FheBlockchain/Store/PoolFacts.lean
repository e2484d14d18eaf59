import FheBlockchain.Library.FiniteMap
import FheBlockchain.Library.Execution
import FheBlockchain.Library.Results
import FheBlockchain.Store.Pools

namespace FheBlockchain.Store.PoolFacts

open Core.Transactions Core.Blocks Pools
open Library.Execution Library.FiniteMap Library.Results

variable {na : Sodium} {pool pool' : MemPool} {p : PooledTx} {txid : Bytes}

structure Priced (na : Sodium) (p : PooledTx) (txid : Bytes) : Prop where
  txid_eq : p.tx.txid na = .ok txid
  fee_ok : ∃ fee, p.fee = .ok fee

theorem priced_iff : (∃ txid, Priced na p txid) ↔
    (p.tx.txid na).isOk = true ∧ p.fee.isOk = true := by
  rw [isOk_iff, isOk_iff]
  constructor
  · rintro ⟨txid, h⟩
    exact ⟨⟨txid, h.txid_eq⟩, h.fee_ok⟩
  · rintro ⟨⟨txid, hid⟩, hfee⟩
    exact ⟨txid, hid, hfee⟩

def idOf (na : Sodium) (p : PooledTx) : Bytes := (p.tx.txid na).toOption.getD []

theorem Priced.idOf_eq (h : Priced na p txid) : idOf na p = txid := by
  rw [idOf, h.txid_eq]
  rfl

def hashesOf (na : Sodium) (p : PooledTx) : List Bytes := p.tx.outputs.map (MemPool.outputHash na)

structure Indexed (na : Sodium) (pool : MemPool) : Prop where
  stored : ∀ {txid p}, pool.txStorage.lookup txid = some p → Priced na p txid ∧
    ∀ h ∈ hashesOf na p, ∃ ps, pool.utxoRef.lookup h = some ps ∧ p ∈ ps
  listed : ∀ {h ps p}, pool.utxoRef.lookup h = some ps → p ∈ ps → ∃ txid, Priced na p txid

theorem indexed_empty : Indexed na .empty where
  stored h := by simp [MemPool.empty] at h
  listed h := by simp [MemPool.empty] at h

/-- One pool is the other without some TXIDs and without the lists under some
outputs. -/
structure Removed (ids hashes : List Bytes) (pool pool' : MemPool) : Prop where
  storage : ∀ k, pool'.txStorage.lookup k = if k ∈ ids then none else pool.txStorage.lookup k
  refs : ∀ h, pool'.utxoRef.lookup h = if h ∈ hashes then none else pool.utxoRef.lookup h

namespace Removed

variable {ids ids' hashes hashes' : List Bytes} {pool'' : MemPool}

theorem refl (pool : MemPool) : Removed [] [] pool pool := ⟨by simp, by simp⟩

theorem trans (h : Removed ids hashes pool pool') (h' : Removed ids' hashes' pool' pool'') :
    Removed (ids ++ ids') (hashes ++ hashes') pool pool'' := by
  refine ⟨fun k ↦ ?_, fun k ↦ ?_⟩
  · rw [h'.storage, h.storage]
    by_cases hk : k ∈ ids <;> simp [hk]
  · rw [h'.refs, h.refs]
    by_cases hk : k ∈ hashes <;> simp [hk]

theorem storage_some {k : Bytes} (h : Removed ids hashes pool pool')
    (hk : pool'.txStorage.lookup k = some p) : k ∉ ids ∧ pool.txStorage.lookup k = some p := by
  rw [h.storage] at hk
  split_ifs at hk with hmem
  exact ⟨hmem, hk⟩

theorem refs_some {k : Bytes} {ps : List PooledTx} (h : Removed ids hashes pool pool')
    (hk : pool'.utxoRef.lookup k = some ps) : k ∉ hashes ∧ pool.utxoRef.lookup k = some ps := by
  rw [h.refs] at hk
  split_ifs at hk with hmem
  exact ⟨hmem, hk⟩

theorem indexed (h : Removed ids hashes pool pool') (hpool : Indexed na pool)
    (hids : ∀ x ∈ hashes, ∀ ps, pool.utxoRef.lookup x = some ps → ∀ p ∈ ps, idOf na p ∈ ids) :
    Indexed na pool' := by
  refine ⟨fun {txid p} hp ↦ ?_, fun hps hp ↦ hpool.listed (h.refs_some hps).2 hp⟩
  obtain ⟨hkeep, hp⟩ := h.storage_some hp
  obtain ⟨hpriced, hrefs⟩ := hpool.stored hp
  refine ⟨hpriced, fun x hx ↦ ?_⟩
  obtain ⟨ps, hps, hmem⟩ := hrefs x hx
  refine ⟨ps, ?_, hmem⟩
  rw [h.refs, if_neg, hps]
  intro hgone
  have hid := hids x hgone ps hps p hmem
  rw [hpriced.idOf_eq] at hid
  exact hkeep hid

end Removed

section Spending

theorem evict_ok (hp : Priced na p txid) (pool : MemPool) :
    ∃ pool', MemPool.evict na p pool = .ok () pool' ∧ Removed [txid] [] pool pool' := by
  obtain ⟨fee, hfee⟩ := hp.fee_ok
  refine ⟨{ pool with
    txStorage := pool.txStorage.erase txid
    txSet := pool.txSet.erase (MemPool.concatTxidFeePair txid fee) }, ?_, ?_⟩
  · rw [MemPool.evict, hp.txid_eq, hfee]
    rfl
  · exact ⟨fun k ↦ by simp [lookup_erase_ite], fun h ↦ by simp⟩

theorem evictAll_ok {ps : List PooledTx} (hps : ∀ p ∈ ps, ∃ txid, Priced na p txid)
    (pool : MemPool) :
    ∃ pool', ps.forM (MemPool.evict na) pool = .ok () pool' ∧
      Removed (ps.map (idOf na)) [] pool pool' := by
  induction ps generalizing pool with
  | nil => exact ⟨pool, rfl, .refl pool⟩
  | cons p ps ih =>
    obtain ⟨txid, hp⟩ := hps p (by simp)
    obtain ⟨mid, hmid, hrem⟩ := evict_ok hp pool
    obtain ⟨pool', hrun, hrest⟩ := ih (fun q hq ↦ hps q (by simp [hq])) mid
    refine ⟨pool', ?_, ?_⟩
    · rw [forM_cons, hmid]
      exact hrun
    · rw [List.map_cons, hp.idOf_eq]
      exact hrem.trans hrest

def listedIds (na : Sodium) (pool : MemPool) (hash : Bytes) : List Bytes :=
  ((pool.utxoRef.lookup hash).getD []).map (idOf na)

theorem spendOutput_ok (hpool : ∀ {h ps p}, pool.utxoRef.lookup h = some ps → p ∈ ps →
      ∃ txid, Priced na p txid) {outp : TransactionOutput} {ps : List PooledTx}
    (hps : pool.utxoRef.lookup (MemPool.outputHash na outp) = some ps) :
    ∃ pool', MemPool.spendOutput na outp pool = .ok () pool' ∧
      Removed (listedIds na pool (MemPool.outputHash na outp)) [MemPool.outputHash na outp] pool
        pool' := by
  obtain ⟨mid, hmid, hrem⟩ := evictAll_ok (fun p hp ↦ hpool hps hp) pool
  refine ⟨{ mid with utxoRef := mid.utxoRef.erase (MemPool.outputHash na outp) }, ?_, ?_⟩
  · rw [MemPool.spendOutput, run_bind_get, hps]
    exact run_bind_of_ok hmid
  · refine ⟨fun k ↦ ?_, fun h ↦ ?_⟩
    · rw [listedIds, hps]
      exact hrem.storage k
    · have := hrem.refs h
      simp only [List.not_mem_nil, if_false] at this
      simp [lookup_erase_ite, this]

def Releasable (na : Sodium) (pool : MemPool) (outputs : List TransactionOutput) : Prop :=
  (outputs.map (MemPool.outputHash na)).Nodup ∧
    ∀ outp ∈ outputs, (pool.utxoRef.lookup (MemPool.outputHash na outp)).isSome

def releasedIds (na : Sodium) (pool : MemPool) (outputs : List TransactionOutput) : List Bytes :=
  outputs.flatMap fun outp ↦ listedIds na pool (MemPool.outputHash na outp)

theorem Removed.refs_of_ne {ids : List Bytes} {x h : Bytes} (hrem : Removed ids [x] pool pool')
    (hne : h ≠ x) : pool'.utxoRef.lookup h = pool.utxoRef.lookup h := by
  rw [hrem.refs, if_neg (by simpa using hne)]

theorem releasable_cons {ids : List Bytes} {outp : TransactionOutput}
    {outputs : List TransactionOutput} {ps : List PooledTx}
    (hps : pool.utxoRef.lookup (MemPool.outputHash na outp) = some ps)
    (hrem : Removed ids [MemPool.outputHash na outp] pool pool') :
    Releasable na pool (outp :: outputs) ↔ Releasable na pool' outputs := by
  rw [Releasable, List.map_cons, List.nodup_cons]
  constructor
  · rintro ⟨⟨hnotin, hnd⟩, hsome⟩
    refine ⟨hnd, fun o ho ↦ ?_⟩
    rw [hrem.refs_of_ne fun he ↦ hnotin (he ▸ List.mem_map_of_mem ho)]
    exact hsome o (by simp [ho])
  · rintro ⟨hnd, hsome⟩
    have hne : ∀ o ∈ outputs, MemPool.outputHash na o ≠ MemPool.outputHash na outp := by
      intro o ho he
      have hlisted := hsome o ho
      rw [he, hrem.refs, if_pos (by simp)] at hlisted
      exact absurd hlisted Bool.false_ne_true
    refine ⟨⟨fun hmem ↦ ?_, hnd⟩, fun o ho ↦ ?_⟩
    · obtain ⟨o, ho, he⟩ := List.mem_map.mp hmem
      exact hne o ho he
    · rcases List.mem_cons.mp ho with rfl | ho
      · rw [hps]
        rfl
      · rw [← hrem.refs_of_ne (hne o ho)]
        exact hsome o ho

/-- Spending the outputs of a transaction either removes what is listed under
them or runs into the assertion. -/
theorem spendOutputs_run (outputs : List TransactionOutput) (hpool : ∀ {h ps p},
      pool.utxoRef.lookup h = some ps → p ∈ ps → ∃ txid, Priced na p txid) :
    (Releasable na pool outputs ∧
      ∃ pool', outputs.forM (MemPool.spendOutput na) pool = .ok () pool' ∧
        Removed (releasedIds na pool outputs) (outputs.map (MemPool.outputHash na)) pool pool') ∨
    (¬ Releasable na pool outputs ∧
      ∃ pool', outputs.forM (MemPool.spendOutput na) pool = .error (.abort .assertion) pool') := by
  induction outputs generalizing pool with
  | nil => exact .inl ⟨⟨.nil, by simp⟩, pool, rfl, .refl pool⟩
  | cons outp outputs ih =>
    cases hps : pool.utxoRef.lookup (MemPool.outputHash na outp) with
    | none =>
      refine .inr ⟨fun h ↦ ?_, pool, ?_⟩
      · have hlisted := h.2 outp (by simp)
        simp [hps] at hlisted
      · rw [forM_cons, MemPool.spendOutput, run_bind_get, hps]
        rfl
    | some ps =>
      obtain ⟨mid, hmid, hrem⟩ := spendOutput_ok hpool hps
      have hiff := @releasable_cons na pool mid _ outp outputs ps hps hrem
      have hrun (r : EStateM.Result _ MemPool Unit)
          (h : outputs.forM (MemPool.spendOutput na) mid = r) :
          (outp :: outputs).forM (MemPool.spendOutput na) pool = r := by
        rw [forM_cons, hmid]
        exact h
      rcases ih (fun hk hp ↦ hpool (hrem.refs_some hk).2 hp) with
        ⟨hrel, pool', hok, hrest⟩ | ⟨hrel, pool', herr⟩
      · refine .inl ⟨hiff.mpr hrel, pool', hrun _ hok, ?_⟩
        have hids : releasedIds na mid outputs = releasedIds na pool outputs := by
          refine List.flatMap_congr fun o ho ↦ ?_
          have hnotin := (List.nodup_cons.mp (hiff.mpr hrel).1).1
          rw [listedIds, listedIds, hrem.refs_of_ne fun he ↦ hnotin (he ▸ List.mem_map_of_mem ho)]
        have hall := hrem.trans hrest
        rw [hids] at hall
        exact hall
      · exact .inr ⟨fun h ↦ hrel (hiff.mp h), pool', hrun _ herr⟩

def removedBy (na : Sodium) (pool : MemPool) (p : PooledTx) : List Bytes :=
  idOf na p :: releasedIds na pool p.tx.outputs

theorem spendTx_unknown (hid : p.tx.txid na = .ok txid) (h : pool.txStorage.lookup txid = none) :
    MemPool.spendTx na p pool = .ok false pool := by
  rw [MemPool.spendTx, hid, run_bind_ofExcept_ok, run_bind_get, h]
  rfl

theorem spendTx_of_listed (hp : Priced na p txid) (hpool : ∀ {h ps p},
      pool.utxoRef.lookup h = some ps → p ∈ ps → ∃ txid, Priced na p txid)
    (h : (pool.txStorage.lookup txid).isSome) :
    (Releasable na pool p.tx.outputs ∧ ∃ pool', MemPool.spendTx na p pool = .ok true pool' ∧
      Removed (removedBy na pool p) (hashesOf na p) pool pool') ∨
    (¬ Releasable na pool p.tx.outputs ∧
      ∃ pool', MemPool.spendTx na p pool = .error (.abort .assertion) pool') := by
  obtain ⟨mid, hmid, hrem⟩ := evict_ok hp pool
  have hrefs (x : Bytes) : mid.utxoRef.lookup x = pool.utxoRef.lookup x := by
    simpa using hrem.refs x
  have hrel : Releasable na mid p.tx.outputs ↔ Releasable na pool p.tx.outputs := by
    simp only [Releasable, hrefs]
  have hspend : MemPool.spendTx na p pool = match p.tx.outputs.forM (MemPool.spendOutput na) mid with
      | .ok _ pool' => .ok true pool'
      | .error e pool' => .error e pool' := by
    rw [MemPool.spendTx, hp.txid_eq, run_bind_ofExcept_ok, run_bind_get, if_pos h,
      run_bind_of_ok hmid]
    simp only [bind, EStateM.bind]
    cases p.tx.outputs.forM (MemPool.spendOutput na) mid <;> rfl
  rcases spendOutputs_run p.tx.outputs fun hk hp ↦ hpool (hrem.refs_some hk).2 hp with
    ⟨hr, pool', hok, hrest⟩ | ⟨hr, pool', herr⟩
  · have hids : releasedIds na mid p.tx.outputs = releasedIds na pool p.tx.outputs := by
      simp only [releasedIds, listedIds, hrefs]
    refine .inl ⟨hrel.mp hr, pool', by rw [hspend, hok], ?_⟩
    rw [removedBy, hp.idOf_eq, ← hids]
    exact hrem.trans hrest
  · exact .inr ⟨fun h ↦ hr (hrel.mpr h), pool', by rw [hspend, herr]⟩

theorem spendTx_run (hp : Priced na p txid) (hpool : Indexed na pool)
    (h : (pool.txStorage.lookup txid).isSome) :
    (Releasable na pool p.tx.outputs ∧ ∃ pool', MemPool.spendTx na p pool = .ok true pool' ∧
      Removed (removedBy na pool p) (hashesOf na p) pool pool' ∧ Indexed na pool') ∨
    (¬ Releasable na pool p.tx.outputs ∧
      ∃ pool', MemPool.spendTx na p pool = .error (.abort .assertion) pool') := by
  rcases spendTx_of_listed hp hpool.listed h with ⟨hr, pool', hok, hremoved⟩ | herr
  · refine .inl ⟨hr, pool', hok, hremoved, ?_⟩
    refine hremoved.indexed hpool fun x hx ps hps q hq ↦ List.mem_cons_of_mem _ ?_
    obtain ⟨outp, houtp, rfl⟩ := List.mem_map.mp hx
    refine List.mem_flatMap.mpr ⟨outp, houtp, ?_⟩
    rw [listedIds, hps]
    exact List.mem_map_of_mem hq
  · exact .inr herr

end Spending

section Blocks

structure Shrunk (na : Sodium) (pool pool' : MemPool) : Prop where
  indexed : Indexed na pool'
  storage : ∀ {k p}, pool'.txStorage.lookup k = some p → pool.txStorage.lookup k = some p

theorem post_spendBlock {txs : List PooledTx} (hpool : Indexed na pool)
    (htxs : ∀ p ∈ txs.tail, ∃ txid, Priced na p txid) :
    Post (MemPool.spendBlock na txs) pool (fun _ ↦ Shrunk na pool) fun _ _ ↦ False := by
  refine post_forM (fun p hp mid hmid ↦ ?_) (⟨hpool, id⟩ : Shrunk na pool pool)
  obtain ⟨txid, hpriced⟩ := htxs p hp
  refine Post.bind (R := fun _ ↦ Shrunk na pool) ?_ fun _ _ h ↦ h
  cases h : mid.txStorage.lookup txid with
  | none =>
    rw [Post, spendTx_unknown hpriced.txid_eq h]
    exact hmid
  | some q =>
    rcases spendTx_run hpriced hmid.indexed (by simp [h]) with
      ⟨-, pool', hok, hrem, hindexed⟩ | ⟨-, pool', herr⟩
    · rw [Post, hok]
      exact ⟨hindexed, fun hk ↦ hmid.storage (hrem.storage_some hk).2⟩
    · rw [Post, herr]
      trivial

structure Listed (na : Sodium) (p : PooledTx) (outputs : List TransactionOutput)
    (pool pool' : MemPool) : Prop where
  storage : pool'.txStorage = pool.txStorage
  keeps : ∀ {h ps}, pool.utxoRef.lookup h = some ps →
    ∃ ps', pool'.utxoRef.lookup h = some ps' ∧ ps ⊆ ps'
  own : ∀ outp ∈ outputs,
    ∃ ps, pool'.utxoRef.lookup (MemPool.outputHash na outp) = some ps ∧ p ∈ ps
  other : ∀ {h ps q}, pool'.utxoRef.lookup h = some ps → q ∈ ps →
    q = p ∨ ∃ ps', pool.utxoRef.lookup h = some ps' ∧ q ∈ ps'

theorem listed_refer (p : PooledTx) (outp : TransactionOutput) (pool : MemPool) :
    Listed na p [outp] pool (MemPool.refer p (MemPool.outputHash na outp) pool) := by
  refine ⟨rfl, fun {h ps} hps ↦ ?_, fun o ho ↦ ?_, fun {h ps q} hps hq ↦ ?_⟩
  · simp only [MemPool.refer, lookup_insert_ite]
    split_ifs with he
    · rw [← he, hps]
      exact ⟨_, rfl, List.subset_append_left _ _⟩
    · exact ⟨ps, hps, List.Subset.refl ps⟩
  · rw [List.mem_singleton.mp ho]
    simp only [MemPool.refer, lookup_insert_ite, if_true]
    exact ⟨_, rfl, by simp⟩
  · simp only [MemPool.refer, lookup_insert_ite] at hps
    split_ifs at hps with he
    · cases hps
      rw [he]
      rcases List.mem_append.mp hq with hq | hq
      · cases hold : pool.utxoRef.lookup (MemPool.outputHash na outp) with
        | none => simp [hold] at hq
        | some ps' => exact .inr ⟨ps', rfl, by simpa [hold] using hq⟩
      · exact .inl (List.mem_singleton.mp hq)
    · exact .inr ⟨ps, hps, hq⟩

theorem listed_all (p : PooledTx) (outputs : List TransactionOutput) (pool : MemPool) :
    Listed na p outputs pool (outputs.foldl
      (fun pool outp ↦ MemPool.refer p (MemPool.outputHash na outp) pool) pool) := by
  induction outputs generalizing pool with
  | nil => exact ⟨rfl, fun h ↦ ⟨_, h, List.Subset.refl _⟩, by simp, fun h hq ↦ .inr ⟨_, h, hq⟩⟩
  | cons outp outputs ih =>
    have hone : Listed na p [outp] pool _ := listed_refer p outp pool
    have hrest := ih (MemPool.refer p (MemPool.outputHash na outp) pool)
    refine ⟨hrest.storage.trans hone.storage, fun hps ↦ ?_, fun o ho ↦ ?_, fun hps hq ↦ ?_⟩
    · obtain ⟨ps', hps', hsub⟩ := hone.keeps hps
      obtain ⟨ps'', hps'', hsub'⟩ := hrest.keeps hps'
      exact ⟨ps'', hps'', List.Subset.trans hsub hsub'⟩
    · rcases List.mem_cons.mp ho with rfl | ho
      · obtain ⟨ps, hps, hp⟩ := hone.own o (by simp)
        obtain ⟨ps', hps', hsub⟩ := hrest.keeps hps
        exact ⟨ps', hps', hsub hp⟩
      · exact hrest.own o ho
    · rcases hrest.other hps hq with rfl | ⟨ps', hps', hq'⟩
      · exact .inl rfl
      · exact hone.other hps' hq'

theorem post_addValidTx (hpool : Indexed na pool) (hp : Priced na p txid) :
    Post (MemPool.addValidTx na p) pool (fun _ ↦ Indexed na) fun _ _ ↦ False := by
  obtain ⟨fee, hfee⟩ := hp.fee_ok
  rw [MemPool.addValidTx, hp.txid_eq, hfee]
  refine post_bind_ofExcept_ok.mpr (post_bind_get.mpr ?_)
  split_ifs
  · exact hpool
  let stored : MemPool := { pool with
    txStorage := pool.txStorage.insert txid p
    txSet := MemPool.setInsert (MemPool.concatTxidFeePair txid fee) pool.txSet }
  have hlisted : Listed na p p.tx.outputs stored _ := listed_all p p.tx.outputs stored
  refine ⟨fun {k q} hq ↦ ?_, fun {h ps q} hps hq ↦ ?_⟩
  · change (p.tx.outputs.foldl _ stored).txStorage.lookup k = some q at hq
    rw [hlisted.storage, lookup_insert_ite] at hq
    split_ifs at hq with he
    · cases hq
      refine ⟨he ▸ hp, fun h hh ↦ ?_⟩
      obtain ⟨outp, houtp, rfl⟩ := List.mem_map.mp hh
      exact hlisted.own outp houtp
    · obtain ⟨hpriced, hrefs⟩ := hpool.stored hq
      refine ⟨hpriced, fun h hh ↦ ?_⟩
      obtain ⟨ps, hps, hmem⟩ := hrefs h hh
      obtain ⟨ps', hps', hsub⟩ := hlisted.keeps hps
      exact ⟨ps', hps', hsub hmem⟩
  · rcases hlisted.other hps hq with rfl | ⟨ps', hps', hq'⟩
    · exact ⟨txid, hp⟩
    · exact hpool.listed hps' hq'

/-- Going through the transactions of a block, none that is still pooled at its
turn pays the same amount to the same key twice. A spent transaction takes those
along that are listed under its outputs. -/
def Clears (na : Sodium) (pool : MemPool) : List Bytes → List PooledTx → Prop
  | _, [] => True
  | gone, p :: ps =>
    if (pool.txStorage.lookup (idOf na p)).isSome ∧ idOf na p ∉ gone then
      (hashesOf na p).Nodup ∧ Clears na pool (removedBy na pool p ++ gone) ps
    else Clears na pool gone ps

instance decidableClears (na : Sodium) (pool : MemPool) :
    ∀ gone ps, Decidable (Clears na pool gone ps)
  | _, [] => .isTrue trivial
  | gone, p :: ps =>
    have := decidableClears na pool (removedBy na pool p ++ gone) ps
    have := decidableClears na pool gone ps
    inferInstanceAs (Decidable (if _ ∧ idOf na p ∉ gone then
      (hashesOf na p).Nodup ∧ Clears na pool (removedBy na pool p ++ gone) ps
      else Clears na pool gone ps))

structure Left (na : Sodium) (pool : MemPool) (gone : List Bytes) (pool' : MemPool) : Prop where
  indexed : Indexed na pool'
  storage : ∀ k, pool'.txStorage.lookup k = if k ∈ gone then none else pool.txStorage.lookup k
  refs : ∀ {h ps}, pool'.utxoRef.lookup h = some ps → pool.utxoRef.lookup h = some ps

def spendTxs (na : Sodium) (ps : List PooledTx) : MemPool.M Unit :=
  ps.forM fun p ↦ do
    let _ ← MemPool.spendTx na p

theorem spendTxs_cons (ps : List PooledTx) {b : Bool}
    (h : MemPool.spendTx na p pool = .ok b pool') :
    spendTxs na (p :: ps) pool = spendTxs na ps pool' := by
  rw [spendTxs, forM_cons, run_bind_of_ok h]
  rfl

theorem spendTxs_error {ps : List PooledTx} {e : Fault Exception Undefined}
    (h : MemPool.spendTx na p pool = .error e pool') :
    spendTxs na (p :: ps) pool = .error e pool' := by
  rw [spendTxs, forM_cons, run_bind_of_error h]

theorem spendTxs_iff {gone : List Bytes} {ps : List PooledTx} (h : Left na pool gone pool')
    (hps : ∀ p ∈ ps, ∃ txid, Priced na p txid ∧
      ∀ q, pool.txStorage.lookup txid = some q → q = p) :
    (∃ last, spendTxs na ps pool' = .ok () last) ↔ Clears na pool gone ps := by
  induction ps generalizing gone pool' with
  | nil => exact ⟨fun _ ↦ trivial, fun _ ↦ ⟨pool', rfl⟩⟩
  | cons p ps ih =>
    obtain ⟨txid, hp, hown⟩ := hps p (by simp)
    have hps' := fun q hq ↦ hps q (List.mem_cons_of_mem p hq)
    rw [Clears, hp.idOf_eq]
    by_cases hin : (pool.txStorage.lookup txid).isSome ∧ txid ∉ gone
    · rw [if_pos hin]
      obtain ⟨q, hq⟩ := Option.isSome_iff_exists.mp hin.1
      obtain rfl := hown q hq
      have hstored : pool'.txStorage.lookup txid = some q := by
        rw [h.storage, if_neg hin.2, hq]
      have hrel : Releasable na pool' q.tx.outputs ↔ (hashesOf na q).Nodup := by
        refine ⟨fun hr ↦ hr.1, fun hnd ↦ ⟨hnd, fun outp houtp ↦ ?_⟩⟩
        obtain ⟨ps, hps, -⟩ := (h.indexed.stored hstored).2 _ (List.mem_map_of_mem houtp)
        rw [hps]
        rfl
      rcases spendTx_run hp h.indexed (by rw [hstored]; rfl) with
        ⟨hr, mid, hok, hrem, hindexed⟩ | ⟨hr, mid, herr⟩
      · have hids : removedBy na pool' q = removedBy na pool q := by
          rw [removedBy, removedBy, releasedIds, releasedIds]
          refine congrArg _ (List.flatMap_congr fun outp houtp ↦ ?_)
          obtain ⟨ps, hps, -⟩ := (h.indexed.stored hstored).2 _ (List.mem_map_of_mem houtp)
          rw [listedIds, listedIds, hps, h.refs hps]
        have hleft : Left na pool (removedBy na pool q ++ gone) mid := by
          refine ⟨hindexed, fun k ↦ ?_, fun hps ↦ h.refs (hrem.refs_some hps).2⟩
          rw [hrem.storage, h.storage, hids]
          by_cases hk : k ∈ removedBy na pool q <;> simp [hk]
        rw [spendTxs_cons _ hok]
        exact (ih hleft hps').trans ⟨fun hc ↦ ⟨hrel.mp hr, hc⟩, fun hc ↦ hc.2⟩
      · rw [spendTxs_error herr]
        constructor
        · rintro ⟨last, he⟩
          cases he
        · exact fun hc ↦ absurd (hrel.mpr hc.1) hr
    · rw [if_neg hin]
      have habsent : pool'.txStorage.lookup txid = none := by
        rw [h.storage]
        split_ifs with hgone
        · rfl
        · cases hq : pool.txStorage.lookup txid with
          | none => rfl
          | some q => exact absurd ⟨by simp [hq], hgone⟩ hin
      rw [spendTxs_cons _ (spendTx_unknown hp.txid_eq habsent)]
      exact ih h hps'

theorem spendTxs_clear {ps : List PooledTx} (hpool : Indexed na pool)
    (hps : ∀ p ∈ ps, ∃ txid, Priced na p txid ∧
      ∀ q, pool.txStorage.lookup txid = some q → q.tx = p.tx ∧ (hashesOf na p).Nodup) :
    ∃ last, spendTxs na ps pool = .ok () last ∧ Shrunk na pool last := by
  induction ps generalizing pool with
  | nil => exact ⟨pool, rfl, hpool, id⟩
  | cons p ps ih =>
    obtain ⟨txid, hp, hown⟩ := hps p (by simp)
    obtain ⟨b, mid, hrun, hmid⟩ : ∃ b mid, MemPool.spendTx na p pool = .ok b mid ∧
        Shrunk na pool mid := by
      cases hq : pool.txStorage.lookup txid with
      | none => exact ⟨false, pool, spendTx_unknown hp.txid_eq hq, hpool, id⟩
      | some q =>
        obtain ⟨htx, hnd⟩ := hown q hq
        rcases spendTx_run hp hpool (by simp [hq]) with ⟨-, mid, hok, hrem, hindexed⟩ | ⟨hr, -⟩
        · exact ⟨true, mid, hok, hindexed, fun hk ↦ (hrem.storage_some hk).2⟩
        · refine absurd ⟨hnd, fun outp houtp ↦ ?_⟩ hr
          obtain ⟨ps, hps, -⟩ := (hpool.stored hq).2 _ (by
            rw [hashesOf, htx]
            exact List.mem_map_of_mem houtp)
          rw [hps]
          rfl
    obtain ⟨last, hlast, hshrunk⟩ := ih hmid.indexed fun q hq ↦ by
      obtain ⟨txid, hpriced, hown⟩ := hps q (List.mem_cons_of_mem p hq)
      exact ⟨txid, hpriced, fun r hr ↦ hown r (hmid.storage hr)⟩
    exact ⟨last, (spendTxs_cons ps hrun).trans hlast, hshrunk.indexed,
      fun hk ↦ hmid.storage (hshrunk.storage hk)⟩

theorem spendBlock_iff {txs : List PooledTx} (hpool : Indexed na pool)
    (htxs : ∀ p ∈ txs.tail, ∃ txid, Priced na p txid ∧
      ∀ q, pool.txStorage.lookup txid = some q → q = p) :
    (∃ last, MemPool.spendBlock na txs pool = .ok () last) ↔ Clears na pool [] txs.tail :=
  spendTxs_iff ⟨hpool, by simp, id⟩ htxs

end Blocks

end FheBlockchain.Store.PoolFacts
