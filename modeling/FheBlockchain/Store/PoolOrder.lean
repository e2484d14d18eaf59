import FheBlockchain.Core.Amounts
import FheBlockchain.Store.PoolFacts

namespace FheBlockchain.Store.PoolOrder

open Core.Transactions Core.Amounts Core.Blocks Pools PoolFacts
open Library.BigEndian Library.Execution Library.FiniteMap Library.Results

variable {na : Sodium} {pool : MemPool} {p q : PooledTx} {txid : Bytes}

section Set

variable {x y : Bytes} {ys : List Bytes}

theorem mem_setInsert : y ∈ MemPool.setInsert x ys ↔ y = x ∨ y ∈ ys := by
  induction ys with
  | nil => simp [MemPool.setInsert]
  | cons z ys ih =>
    rw [MemPool.setInsert]
    split_ifs with he hlt
    · simp [he]
    · simp
    · rw [List.mem_cons, ih, List.mem_cons]
      exact or_left_comm

theorem sorted_setInsert (h : ys.Pairwise (· > ·)) :
    (MemPool.setInsert x ys).Pairwise (· > ·) := by
  induction ys with
  | nil => exact List.pairwise_singleton _ _
  | cons z ys ih =>
    obtain ⟨hz, hys⟩ := List.pairwise_cons.mp h
    rw [MemPool.setInsert]
    split_ifs with he hlt
    · exact h
    · refine List.pairwise_cons.mpr ⟨fun y hy ↦ ?_, h⟩
      rcases List.mem_cons.mp hy with rfl | hy
      · exact hlt
      · exact List.lt_trans (hz y hy) hlt
    · refine List.pairwise_cons.mpr ⟨fun y hy ↦ ?_, ih hys⟩
      rcases mem_setInsert.mp hy with rfl | hy
      · rcases Std.lt_trichotomy y z with hgt | heq | hgt
        · exact hgt
        · exact absurd heq he
        · exact absurd hgt hlt
      · exact hz y hy

theorem nodup_of_sorted (h : ys.Pairwise (· > ·)) : ys.Nodup := by
  refine List.Pairwise.imp (fun {a b} hgt ↦ ?_) h
  intro he
  rw [he] at hgt
  exact List.lt_irrefl b hgt

end Set

section Pairs

variable {fee fee' : UInt64} {id id' : Bytes}

theorem concat_inj (h : MemPool.concatTxidFeePair id fee = MemPool.concatTxidFeePair id' fee') :
    id = id' ∧ fee = fee' := by
  obtain ⟨hfee, hid⟩ := List.append_inj h (by simp [uint64ToVectorBigEndian])
  exact ⟨hid, UInt64.toNat_inj.mp (bigEndian_inj fee.toNat_lt fee'.toNat_lt hfee)⟩

theorem txidFromPair_concat (id : Bytes) (fee : UInt64) :
    MemPool.txidFromPair (MemPool.concatTxidFeePair id fee) = id := by
  rw [MemPool.txidFromPair, MemPool.concatTxidFeePair, List.drop_left']
  simp [uint64ToVectorBigEndian]

/-- The order of the strings is the order of the fees. -/
theorem fee_le_of_lt
    (h : MemPool.concatTxidFeePair id fee < MemPool.concatTxidFeePair id' fee') : fee ≤ fee' := by
  by_contra hnot
  have hlt : fee'.toNat < fee.toNat := UInt64.lt_iff_toNat_lt.mp (UInt64.not_le.mp hnot)
  have hback := bigEndian_append_lt (k := 8) id' id fee.toNat_lt hlt
  exact List.lt_irrefl _ (List.lt_trans h hback)

end Pairs

def Entry (na : Sodium) (txid : Bytes) (p : PooledTx) (x : Bytes) : Prop :=
  p.tx.txid na = .ok txid ∧ ∃ fee, p.fee = .ok fee ∧ x = MemPool.concatTxidFeePair txid fee

/-- A transaction whose fee can be computed if its TXID can: its inputs cover its
outputs. -/
def Pays (na : Sodium) (p : PooledTx) : Prop :=
  ∀ txid, p.tx.txid na = .ok txid → ∃ fee, p.fee = .ok fee

instance (na : Sodium) (p : PooledTx) : Decidable (Pays na p) :=
  decidable_of_iff ((p.tx.txid na).isOk = true → p.fee.isOk = true) <| by
    simp only [isOk_iff, Pays, forall_exists_index]

/-- The set of fees has the entries of the stored transactions, the largest
first. What is stored or listed is among the given objects. -/
structure Ordered (na : Sodium) (objects : PooledTx → Prop) (pool : MemPool) : Prop where
  sorted : pool.txSet.Pairwise (· > ·)
  entries : ∀ x, x ∈ pool.txSet ↔
    ∃ txid p, pool.txStorage.lookup txid = some p ∧ Entry na txid p x
  stored : ∀ {txid p}, pool.txStorage.lookup txid = some p → objects p ∧ Priced na p txid
  listed : ∀ {h ps p}, pool.utxoRef.lookup h = some ps → p ∈ ps → objects p ∧ Pays na p

def FeesAgree (na : Sodium) (objects : PooledTx → Prop) : Prop :=
  ∀ p q txid, objects p → objects q → p.tx.txid na = .ok txid → q.tx.txid na = .ok txid →
    p.fee = q.fee

section Steps

variable {objects : PooledTx → Prop}

theorem ordered_empty : Ordered na objects .empty where
  sorted := .nil
  entries x := by simp [MemPool.empty]
  stored h := by simp [MemPool.empty] at h
  listed h := by simp [MemPool.empty] at h

theorem Ordered.pays (hpool : Ordered na objects pool) (hfees : FeesAgree na objects)
    (hp : objects p) (hid : p.tx.txid na = .ok txid)
    (hin : (pool.txStorage.lookup txid).isSome = true) : Pays na p := by
  intro id hid'
  obtain rfl := Except.ok.inj (hid.symm.trans hid')
  obtain ⟨q, hq⟩ := Option.isSome_iff_exists.mp hin
  obtain ⟨hobj, hidq, fee, hfee⟩ := hpool.stored hq
  exact ⟨fee, (hfees p q txid hp hobj hid hidq).trans hfee⟩

theorem post_evict (hfees : FeesAgree na objects) (hp : objects p) (hpays : Pays na p)
    (hpool : Ordered na objects pool) :
    Post (MemPool.evict na p) pool (fun _ ↦ Ordered na objects) fun _ ↦ Ordered na objects := by
  refine post_bind_ofExcept (fun txid hid ↦ ?_) fun _ _ ↦ hpool
  obtain ⟨fee, hfee⟩ := hpays txid hid
  rw [hfee]
  refine post_bind_modify.mpr (post_bind_ofExcept_ok.mpr ?_)
  refine post_modify.mpr ⟨hpool.sorted.sublist List.erase_sublist, fun x ↦ ?_, fun {k q} hq ↦ ?_,
    hpool.listed⟩
  · rw [(nodup_of_sorted hpool.sorted).mem_erase_iff, hpool.entries]
    constructor
    · intro h
      obtain ⟨hne, k, q, hq, hentry⟩ := h
      refine ⟨k, q, ?_, hentry⟩
      rw [lookup_erase_ite, if_neg, hq]
      intro he
      subst he
      obtain ⟨hid', fee', hfee', rfl⟩ := hentry
      have hagree := hfees q p k (hpool.stored hq).1 hp hid' hid
      rw [hfee', hfee] at hagree
      exact hne (by rw [Except.ok.inj hagree])
    · intro h
      obtain ⟨k, q, hq, hentry⟩ := h
      rw [lookup_erase_ite] at hq
      split_ifs at hq with he
      refine ⟨fun hx ↦ ?_, k, q, hq, hentry⟩
      obtain ⟨-, fee', -, rfl⟩ := hentry
      exact he (concat_inj hx).1
  · change (pool.txStorage.erase txid).lookup k = some q at hq
    rw [lookup_erase_ite] at hq
    split_ifs at hq
    exact hpool.stored hq

theorem post_spendOutput (hfees : FeesAgree na objects) (outp : TransactionOutput)
    (hpool : Ordered na objects pool) :
    Post (MemPool.spendOutput na outp) pool (fun _ ↦ Ordered na objects) fun _ ↦ Ordered na objects := by
  refine post_bind_get.mpr ?_
  cases hps : pool.utxoRef.lookup (MemPool.outputHash na outp) with
  | none => exact trivial
  | some others =>
    have hloop : Post (others.forM (MemPool.evict na)) pool (fun _ ↦ Ordered na objects)
        fun _ ↦ Ordered na objects :=
      post_forM (fun p hp _ h ↦ post_evict hfees (hpool.listed hps hp).1 (hpool.listed hps hp).2 h)
        hpool
    refine hloop.bind fun _ mid hmid ↦ ?_
    refine post_modify.mpr ⟨hmid.sorted, hmid.entries, hmid.stored, fun {h ps p} hps hp ↦ ?_⟩
    rw [lookup_erase_ite] at hps
    split_ifs at hps
    exact hmid.listed hps hp

theorem post_spendTx (hfees : FeesAgree na objects) (hp : objects p)
    (hpool : Ordered na objects pool) :
    Post (MemPool.spendTx na p) pool (fun _ ↦ Ordered na objects) fun _ ↦ Ordered na objects := by
  refine post_bind_ofExcept (fun txid hid ↦ post_bind_get.mpr ?_) fun _ _ ↦ hpool
  split_ifs with hin
  · refine (post_evict hfees hp (hpool.pays hfees hp hid hin) hpool).bind fun _ mid hmid ↦ ?_
    have hloop : Post (p.tx.outputs.forM (MemPool.spendOutput na)) mid
        (fun _ ↦ Ordered na objects) fun _ ↦ Ordered na objects :=
      post_forM (fun outp _ _ h ↦ post_spendOutput hfees outp h) hmid
    exact hloop.bind fun _ _ h ↦ h
  · exact hpool

theorem mem_of_unlist {ps qs : List PooledTx} (h : MemPool.unlist na txid ps = .ok qs)
    (hq : q ∈ qs) : q ∈ ps := by
  induction ps generalizing qs with
  | nil => cases h
  | cons p ps ih =>
    rw [MemPool.unlist, bind_eq_ok] at h
    obtain ⟨id, -, h⟩ := h
    split_ifs at h with he
    · obtain rfl := Except.ok.inj h
      exact List.mem_cons_of_mem p hq
    · obtain ⟨rest, hrest, h⟩ := bind_eq_ok.mp h
      obtain rfl := Except.ok.inj h
      rcases List.mem_cons.mp hq with rfl | hq
      · exact List.mem_cons_self
      · exact List.mem_cons_of_mem p (ih hrest hq)

theorem post_unlistOutput (outp : TransactionOutput) (hpool : Ordered na objects pool) :
    Post (MemPool.unlistOutput na txid outp) pool (fun _ ↦ Ordered na objects) fun _ ↦ Ordered na objects := by
  refine post_bind_get.mpr ?_
  split
  · trivial
  next p hps =>
    refine post_modify.mpr ⟨hpool.sorted, hpool.entries, hpool.stored, fun {h ps p} hps hp ↦ ?_⟩
    rw [lookup_erase_ite] at hps
    split_ifs at hps
    exact hpool.listed hps hp
  next record _ hrecord =>
    refine post_bind_ofExcept (fun rest hrest ↦ ?_) fun _ _ ↦ hpool
    refine post_modify.mpr ⟨hpool.sorted, hpool.entries, hpool.stored, fun {h ps p} hps hp ↦ ?_⟩
    rw [lookup_insert_ite] at hps
    split_ifs at hps with he
    · cases hps
      exact hpool.listed hrecord (mem_of_unlist hrest hp)
    · exact hpool.listed hps hp

theorem post_removeTx (hfees : FeesAgree na objects) (hp : objects p)
    (hpool : Ordered na objects pool) :
    Post (MemPool.removeTx na p) pool (fun _ ↦ Ordered na objects) fun _ ↦ Ordered na objects := by
  refine post_bind_ofExcept (fun txid hid ↦ post_bind_get.mpr ?_) fun _ _ ↦ hpool
  split_ifs with hin
  · refine (post_evict hfees hp (hpool.pays hfees hp hid hin) hpool).bind fun _ mid hmid ↦ ?_
    have hloop : Post (p.tx.outputs.forM (MemPool.unlistOutput na txid)) mid
        (fun _ ↦ Ordered na objects) fun _ ↦ Ordered na objects :=
      post_forM (fun outp _ _ h ↦ post_unlistOutput outp h) hmid
    exact hloop.bind fun _ _ h ↦ h
  · exact hpool

theorem post_addValidTx (hp : objects p) (hpays : Pays na p) (hpool : Ordered na objects pool) :
    Post (MemPool.addValidTx na p) pool (fun _ ↦ Ordered na objects) fun _ ↦ Ordered na objects := by
  refine post_bind_ofExcept (fun txid hid ↦ post_bind_get.mpr ?_) fun _ _ ↦ hpool
  split_ifs with hin
  · exact hpool
  obtain ⟨fee, hfee⟩ := hpays txid hid
  rw [hfee]
  have hnone : pool.txStorage.lookup txid = none := by simpa using hin
  let stored : MemPool := { pool with
    txStorage := pool.txStorage.insert txid p
    txSet := MemPool.setInsert (MemPool.concatTxidFeePair txid fee) pool.txSet }
  have hset : ∀ pool', (p.tx.outputs.foldl
      (fun pool outp ↦ MemPool.refer p (MemPool.outputHash na outp) pool) pool').txSet =
        pool'.txSet := by
    intro pool'
    induction p.tx.outputs generalizing pool' with
    | nil => rfl
    | cons outp outputs ih => exact ih _
  have hlisted : Listed na p p.tx.outputs stored _ := listed_all p p.tx.outputs stored
  have hentry : Entry na txid p (MemPool.concatTxidFeePair txid fee) := ⟨hid, fee, hfee, rfl⟩
  refine ⟨?_, fun x ↦ ?_, fun {k q} hq ↦ ?_, fun {h ps q} hps hq ↦ ?_⟩
  · change (p.tx.outputs.foldl _ stored).txSet.Pairwise _
    rw [hset]
    exact sorted_setInsert hpool.sorted
  · change x ∈ (p.tx.outputs.foldl _ stored).txSet ↔
      ∃ k q, (p.tx.outputs.foldl _ stored).txStorage.lookup k = some q ∧ _
    rw [hset, hlisted.storage, mem_setInsert, hpool.entries]
    constructor
    · intro h
      rcases h with rfl | ⟨k, q, hq, hx⟩
      · exact ⟨txid, p, by simp [stored], hentry⟩
      · refine ⟨k, q, ?_, hx⟩
        rw [lookup_insert_ite, if_neg, hq]
        intro he
        rw [he, hnone] at hq
        exact absurd hq (by simp)
    · intro h
      obtain ⟨k, q, hq, hx⟩ := h
      rw [lookup_insert_ite] at hq
      split_ifs at hq with he
      · cases hq
        subst he
        obtain ⟨-, fee', hfee', rfl⟩ := hx
        rw [hfee] at hfee'
        exact .inl (by rw [Except.ok.inj hfee'])
      · exact .inr ⟨k, q, hq, hx⟩
  · change (p.tx.outputs.foldl _ stored).txStorage.lookup k = some q at hq
    rw [hlisted.storage, lookup_insert_ite] at hq
    split_ifs at hq with he
    · cases hq
      exact ⟨hp, he ▸ hid, fee, hfee⟩
    · exact hpool.stored hq
  · rcases hlisted.other hps hq with rfl | ⟨ps', hps', hq'⟩
    · exact ⟨hp, hpays⟩
    · exact hpool.listed hps' hq'

theorem post_addTxs {ps : List PooledTx} (hps : ∀ p ∈ ps, objects p ∧ Pays na p)
    (hpool : Ordered na objects pool) :
    Post (MemPool.addTxs na ps) pool (fun _ ↦ Ordered na objects) fun _ ↦ Ordered na objects := by
  induction ps generalizing pool with
  | nil => exact hpool
  | cons p ps ih =>
    refine (post_addValidTx (hps p (by simp)).1 (hps p (by simp)).2 hpool).bind fun added mid hmid ↦ ?_
    cases added with
    | false => exact hmid
    | true => exact ih (fun q hq ↦ hps q (by simp [hq])) hmid

end Steps

section Top

variable {objects : PooledTx → Prop} {x y : Bytes}

def FeeLe (q p : PooledTx) : Prop := ∃ f g, p.fee = .ok f ∧ q.fee = .ok g ∧ g ≤ f

def Stored (na : Sodium) (pool : MemPool) (x : Bytes) (p : PooledTx) : Prop :=
  ∃ txid, pool.txStorage.lookup txid = some p ∧ Entry na txid p x

theorem Stored.txidFromPair_eq (h : Stored na pool x p) :
    MemPool.txidFromPair x = idOf na p ∧ pool.txStorage.lookup (idOf na p) = some p := by
  obtain ⟨txid, hp, hid, fee, -, rfl⟩ := h
  have hidOf : idOf na p = txid := by
    rw [idOf, hid]
    rfl
  rw [txidFromPair_concat, hidOf]
  exact ⟨rfl, hp⟩

theorem Stored.eq (h : Stored na pool x p) (h' : Stored na pool y q) (hid : idOf na p = idOf na q) :
    x = y := by
  have hp := h.txidFromPair_eq.2
  have hq := h'.txidFromPair_eq.2
  rw [hid, hq] at hp
  obtain rfl := Option.some.inj hp
  obtain ⟨txid, -, hid₁, fee, hfee, rfl⟩ := h
  obtain ⟨txid', -, hid₂, fee', hfee', rfl⟩ := h'
  obtain rfl := Except.ok.inj (hid₁.symm.trans hid₂)
  obtain rfl := Except.ok.inj (hfee.symm.trans hfee')
  rfl

theorem Stored.feeLe (h : Stored na pool x p) (h' : Stored na pool y q) (hlt : x > y) :
    FeeLe q p := by
  obtain ⟨txid, -, -, fee, hfee, rfl⟩ := h
  obtain ⟨txid', -, -, fee', hfee', rfl⟩ := h'
  exact ⟨fee, fee', hfee, hfee', fee_le_of_lt hlt⟩

structure Top (na : Sodium) (pool : MemPool) (limit : ℕ) (ps : List PooledTx) : Prop where
  length : ps.length = min limit pool.txStorage.keys.card
  distinct : (ps.map (idOf na)).Nodup
  pooled : ∀ p ∈ ps, pool.txStorage.lookup (idOf na p) = some p
  descending : ps.Pairwise fun p q ↦ FeeLe q p
  rest : ∀ txid q, pool.txStorage.lookup txid = some q → q ∉ ps → ∀ p ∈ ps, FeeLe q p

theorem lookups_ok {xs : List Bytes} (h : ∀ x ∈ xs, ∃ p, Stored na pool x p) :
    ∃ ps, xs.mapM (fun pair ↦ match pool.txStorage.lookup (MemPool.txidFromPair pair) with
      | some p => (.ok p : Result PooledTx)
      | none => .error (outOfRange "unordered_map::at")) = .ok ps ∧
      List.Forall₂ (Stored na pool) xs ps := by
  induction xs with
  | nil => exact ⟨[], rfl, .nil⟩
  | cons x xs ih =>
    obtain ⟨p, hp⟩ := h x (by simp)
    obtain ⟨ps, hps, hrest⟩ := ih fun y hy ↦ h y (by simp [hy])
    refine ⟨p :: ps, mapM_cons_ok ?_ hps, .cons hp hrest⟩
    rw [hp.txidFromPair_eq.1, hp.txidFromPair_eq.2]

theorem card_keys (hpool : Ordered na objects pool) :
    pool.txStorage.keys.card = pool.txSet.length := by
  have hinj : (pool.txSet.map MemPool.txidFromPair).Nodup := by
    refine List.Nodup.map_on (fun x hx y hy he ↦ ?_) (nodup_of_sorted hpool.sorted)
    obtain ⟨k, p, hp⟩ := (hpool.entries x).mp hx
    obtain ⟨l, q, hq⟩ := (hpool.entries y).mp hy
    have hpx : Stored na pool x p := ⟨k, hp⟩
    have hqy : Stored na pool y q := ⟨l, hq⟩
    exact hpx.eq hqy (by rw [← hpx.txidFromPair_eq.1, ← hqy.txidFromPair_eq.1, he])
  have hkeys : pool.txStorage.keys = (pool.txSet.map MemPool.txidFromPair).toFinset := by
    ext txid
    rw [Finmap.mem_keys, List.mem_toFinset, List.mem_map]
    constructor
    · intro h
      obtain ⟨p, hp⟩ := Finmap.mem_iff.mp h
      obtain ⟨hid, fee, hfee⟩ := (hpool.stored hp).2
      exact ⟨_, (hpool.entries _).mpr ⟨txid, p, hp, hid, fee, hfee, rfl⟩, txidFromPair_concat _ _⟩
    · intro h
      obtain ⟨x, hx, rfl⟩ := h
      obtain ⟨k, p, hp⟩ := (hpool.entries x).mp hx
      have hpx : Stored na pool x p := ⟨k, hp⟩
      rw [hpx.txidFromPair_eq.1]
      exact Finmap.mem_of_lookup_eq_some hpx.txidFromPair_eq.2
  rw [hkeys, List.toFinset_card_of_nodup hinj, List.length_map]

theorem getTop_top (hpool : Ordered na objects pool) (limit : ℕ) :
    ∃ ps, pool.getTop limit = .ok ps ∧ Top na pool limit ps := by
  have hentry : ∀ x ∈ pool.txSet, ∃ p, Stored na pool x p := by
    intro x hx
    obtain ⟨k, p, hp⟩ := (hpool.entries x).mp hx
    exact ⟨p, k, hp⟩
  obtain ⟨ps, hps, hall⟩ := lookups_ok fun x hx ↦ hentry x (List.mem_of_mem_take hx)
  have hids : (pool.txSet.take limit).map MemPool.txidFromPair = ps.map (idOf na) := by
    refine List.forall₂_eq_eq_eq ▸ List.forall₂_map_left_iff.mpr (List.forall₂_map_right_iff.mpr ?_)
    exact hall.imp fun x p h ↦ h.txidFromPair_eq.1
  have hsorted := hpool.sorted
  rw [← List.take_append_drop limit pool.txSet, List.pairwise_append] at hsorted
  obtain ⟨htake, -, hcross⟩ := hsorted
  refine ⟨ps, hps, ?_, ?_, fun p hp ↦ ?_, ?_, fun txid q hq hnot p hp ↦ ?_⟩
  · rw [← hall.length_eq, List.length_take, card_keys hpool]
  · rw [← hids]
    refine List.Nodup.map_on (fun x hx y hy he ↦ ?_) (nodup_of_sorted htake)
    obtain ⟨p, hp⟩ := hentry x (List.mem_of_mem_take hx)
    obtain ⟨q, hq⟩ := hentry y (List.mem_of_mem_take hy)
    exact hp.eq hq (by rw [← hp.txidFromPair_eq.1, ← hq.txidFromPair_eq.1, he])
  · obtain ⟨x, -, hx⟩ := exists_of_forall₂ hall.flip hp
    exact Stored.txidFromPair_eq hx |>.2
  · exact pairwise_of_forall₂ hall htake fun hx hy hlt ↦ hx.feeLe hy hlt
  · obtain ⟨hid, fee, hfee⟩ := (hpool.stored hq).2
    have hx := (hpool.entries _).mpr ⟨txid, q, hq, hid, fee, hfee, rfl⟩
    have hxq : Stored na pool (MemPool.concatTxidFeePair txid fee) q :=
      ⟨txid, hq, hid, fee, hfee, rfl⟩
    rw [← List.take_append_drop limit pool.txSet, List.mem_append] at hx
    rcases hx with hx | hx
    · obtain ⟨p', hp', hxp⟩ := exists_of_forall₂ hall hx
      have heq : q = p' := by
        have hsame := hxp.txidFromPair_eq
        rw [← hsame.1, hxq.txidFromPair_eq.1, hxq.txidFromPair_eq.2] at hsame
        exact Option.some.inj hsame.2
      exact absurd (heq ▸ hp') hnot
    · obtain ⟨y, hy, hyp⟩ := exists_of_forall₂ hall.flip hp
      exact Stored.feeLe hyp hxq (hcross y hy _ hx)

end Top

section Calls

inductive Call
  | addValidTx (p : PooledTx)
  | removeTx (p : PooledTx)
  | spendTx (p : PooledTx)
  | spendBlock (txs : List PooledTx)
  | addBlock (txs : List PooledTx)

def Call.objects : Call → List PooledTx
  | .addValidTx p => [p]
  | .removeTx p => [p]
  | .spendTx p => [p]
  | .spendBlock txs => txs.tail
  | .addBlock txs => txs.tail

def Call.added : Call → List PooledTx
  | .addValidTx p => [p]
  | .addBlock txs => txs.tail
  | .removeTx _ | .spendTx _ | .spendBlock _ => []

def perform (na : Sodium) : Call → MemPool.M Unit
  | .addValidTx p => do let _ ← MemPool.addValidTx na p
  | .removeTx p => do let _ ← MemPool.removeTx na p
  | .spendTx p => do let _ ← MemPool.spendTx na p
  | .spendBlock txs => MemPool.spendBlock na txs
  | .addBlock txs => do let _ ← MemPool.addBlock na txs

/-- The next call comes after an exception, too, but not after a failed assertion. -/
def attempt (na : Sodium) (call : Call) : MemPool.M Unit := fun pool ↦
  match perform na call pool with
  | .error (.throw _) pool => .ok () pool
  | r => r

theorem post_perform {objects : PooledTx → Prop} (hfees : FeesAgree na objects) {call : Call}
    (hcall : ∀ p ∈ call.objects, objects p) (hpays : ∀ p ∈ call.added, Pays na p)
    (hpool : Ordered na objects pool) :
    Post (perform na call) pool (fun _ ↦ Ordered na objects) fun _ ↦ Ordered na objects := by
  cases call with
  | addValidTx p =>
    exact (post_addValidTx (hcall p List.mem_cons_self) (hpays p List.mem_cons_self) hpool).bind
      fun _ _ h ↦ h
  | removeTx p => exact (post_removeTx hfees (hcall p List.mem_cons_self) hpool).bind fun _ _ h ↦ h
  | spendTx p => exact (post_spendTx hfees (hcall p List.mem_cons_self) hpool).bind fun _ _ h ↦ h
  | spendBlock txs =>
    refine post_forM (fun p hp _ h ↦ ?_) hpool
    exact (post_spendTx hfees (hcall p hp) h).bind fun _ _ h ↦ h
  | addBlock txs =>
    exact (post_addTxs (fun p hp ↦ ⟨hcall p hp, hpays p hp⟩) hpool).bind fun _ _ h ↦ h

theorem post_attempt {objects : PooledTx → Prop} (hfees : FeesAgree na objects) {call : Call}
    (hcall : ∀ p ∈ call.objects, objects p) (hpays : ∀ p ∈ call.added, Pays na p)
    (hpool : Ordered na objects pool) :
    Post (attempt na call) pool (fun _ ↦ Ordered na objects) fun _ _ ↦ True := by
  have hpost := post_perform hfees hcall hpays hpool
  rw [Post] at hpost
  rw [Post, attempt]
  cases hrun : perform na call pool with
  | ok _ pool' =>
    rw [hrun] at hpost
    exact hpost
  | error e pool' =>
    rw [hrun] at hpost
    cases e with
    | throw e => exact hpost
    | abort u => trivial

def InFeeOrder (na : Sodium) (pool : MemPool) : Prop :=
  (pool.txSet.Nodup ∧ ∀ x, x ∈ pool.txSet ↔
    ∃ txid p, pool.txStorage.lookup txid = some p ∧ Entry na txid p x) ∧
  ∀ limit, ∃ ps, pool.getTop limit = .ok ps ∧ Top na pool limit ps

/-- After any calls that fail no assertion and add only transactions that pay for
their outputs, the pool is in the order of the fees. -/
theorem pool_in_fee_order (na : Sodium) (calls : List Call) (pool : MemPool)
    (hfees : FeesAgree na fun p ↦ ∃ call ∈ calls, p ∈ call.objects)
    (hpays : ∀ call ∈ calls, ∀ p ∈ call.added, Pays na p)
    (hrun : calls.forM (attempt na) .empty = .ok () pool) : InFeeOrder na pool := by
  have hpost : Post (calls.forM (attempt na)) .empty
      (fun _ ↦ Ordered na fun p ↦ ∃ call ∈ calls, p ∈ call.objects) fun _ _ ↦ True :=
    post_forM (fun call hcall _ h ↦
      post_attempt hfees (fun p hp ↦ ⟨call, hcall, hp⟩) (hpays call hcall) h) ordered_empty
  rw [Post, hrun] at hpost
  exact ⟨⟨nodup_of_sorted hpost.sorted, hpost.entries⟩, getTop_top hpost⟩

def pooled (amount : UInt64) : PooledTx := { tx := paying [amount], inAmounts := [10] }

def sampleCalls : List Call :=
  [.addValidTx (pooled 3), .addBlock [pooled 0, pooled 5], .addValidTx (pooled 4),
    .spendBlock [pooled 0, pooled 3]]

theorem feesAgree_of_decided {calls : List Call} (hall : ∀ p ∈ calls.flatMap Call.objects,
    ∀ q ∈ calls.flatMap Call.objects, p.tx.txid na = q.tx.txid na → p.fee = q.fee) :
    FeesAgree na fun p ↦ ∃ call ∈ calls, p ∈ call.objects := by
  intro p q txid hp hq hidp hidq
  exact hall p (List.mem_flatMap.mpr hp) q (List.mem_flatMap.mpr hq) (hidp.trans hidq.symm)

/-- Two payments stay, and the one with the higher fee is on top. -/
theorem pool_in_fee_order_sample : ∃ pool,
    sampleCalls.forM (attempt sampleSodium) .empty = .ok () pool ∧
      pool.txStorage.keys.card = 2 ∧ pool.getTop 1 = .ok [pooled 4] ∧
      pool.getTop 5 = .ok [pooled 4, pooled 5] ∧ InFeeOrder sampleSodium pool := by
  have hok : returns (sampleCalls.forM (attempt sampleSodium)) .empty (fun _ pool ↦
      decide (pool.txStorage.keys.card = 2) && decide (pool.getTop 1 = .ok [pooled 4]) &&
        decide (pool.getTop 5 = .ok [pooled 4, pooled 5])) = true := by
    decide +kernel
  obtain ⟨_, pool, hrun, htest⟩ := returns_iff.mp hok
  simp only [Bool.and_eq_true, decide_eq_true_eq] at htest
  obtain ⟨⟨hcard, hone⟩, hall⟩ := htest
  exact ⟨pool, hrun, hcard, hone, hall, pool_in_fee_order _ _ _
    (feesAgree_of_decided (by decide +kernel)) (by decide +kernel) hrun⟩

/-- A transaction without enough inputs is stored before its fee is asked for. -/
theorem unpaid_out_of_order :
    ¬ ∀ (na : Sodium) (calls : List Call) (pool : MemPool),
      (FeesAgree na fun p ↦ ∃ call ∈ calls, p ∈ call.objects) →
      calls.forM (attempt na) .empty = .ok () pool → InFeeOrder na pool := by
  intro h
  have hok : returns ([.addValidTx (pooled 20)].forM (attempt sampleSodium)) .empty
      (fun _ pool ↦ decide (pool.txStorage.keys.card = 1) && decide (pool.txSet = [])) = true := by
    decide +kernel
  obtain ⟨_, pool, hrun, htest⟩ := returns_iff.mp hok
  simp only [Bool.and_eq_true, decide_eq_true_eq] at htest
  obtain ⟨hcard, hset⟩ := htest
  obtain ⟨ps, hps, htop⟩ := (h _ _ pool (feesAgree_of_decided (by decide +kernel)) hrun).2 1
  have hnil : ps = [] := by
    rw [MemPool.getTop, hset] at hps
    exact (Except.ok.inj hps).symm
  have hlen := htop.length
  rw [hnil, hcard] at hlen
  simp at hlen

end Calls

end FheBlockchain.Store.PoolOrder
