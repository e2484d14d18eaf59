import FheBlockchain.Chain.Accepted
import FheBlockchain.Library.PairTree

namespace FheBlockchain.Chain.HeaderCommitment

open Core.Transactions Core.Blocks Core.Serialization Store.Pools Validation ValidationFacts Accepted
open Store.Chainstate hiding M addBlock
open Library.PairTree Library.BigEndian Library.Results

section Root

variable {na : Sodium}

def joinHash (na : Sodium) (p : Bytes × Bytes) : Bytes := na.hash (p.1 ++ p.2)

theorem nextLevel_eq (level : List Bytes) : Merkle.nextLevel na level = up (joinHash na) level := by
  fun_induction Merkle.nextLevel na level with
  | case1 a b rest ih =>
    rw [ih]
    rfl
  | case2 | case3 => rfl

def hashedFor (na : Sodium) : ℕ → List Bytes → List Bytes
  | 0, _ => []
  | fuel + 1, level =>
    if level.length = 1 then []
    else (pairs level).map (fun p ↦ p.1 ++ p.2) ++ hashedFor na fuel (Merkle.nextLevel na level)

theorem computeRoot_levels (na : Sodium) {fuel : ℕ} {level : List Bytes} (hne : level ≠ [])
    (hfuel : level.length ≤ fuel + 1) : ∃ d,
      levels (joinHash na) level d = [Merkle.computeRoot na fuel level] ∧
      (∀ i < d, 2 ≤ (levels (joinHash na) level i).length) ∧
      ∀ i < d, ∀ p ∈ pairs (levels (joinHash na) level i), p.1 ++ p.2 ∈ hashedFor na fuel level := by
  induction fuel generalizing level with
  | zero =>
    match level with
    | [x] => exact ⟨0, rfl, by simp, by simp⟩
    | _ :: _ :: _ => simp at hfuel
  | succ fuel ih =>
    by_cases h1 : level.length = 1
    · obtain ⟨x, rfl⟩ := List.length_eq_one_iff.mp h1
      exact ⟨0, rfl, by simp, by simp⟩
    · have hpos := List.length_pos_iff.mpr hne
      have hlen := Merkle.length_nextLevel na level
      have hne' : Merkle.nextLevel na level ≠ [] := List.length_pos_iff.mp (by omega)
      obtain ⟨d, hroot, htwo, hin⟩ := ih hne' (by omega)
      rw [nextLevel_eq] at hroot
      refine ⟨d + 1, ?_, fun i hi ↦ ?_, fun i hi p hp ↦ ?_⟩
      · rw [← levels_up, hroot, Merkle.computeRoot, if_neg h1, nextLevel_eq]
      · cases i with
        | zero =>
          rw [levels]
          omega
        | succ i =>
          have := htwo i (by omega)
          rwa [nextLevel_eq, levels_up] at this
      · rw [hashedFor, if_neg h1, List.mem_append]
        cases i with
        | zero => exact .inl (List.mem_map_of_mem hp)
        | succ i =>
          refine .inr (hin i (by omega) p ?_)
          rwa [nextLevel_eq, levels_up]

theorem length_of_mem_levels {leaves : List Bytes} (hl : ∀ x ∈ leaves, x.length = 32) (i : ℕ) :
    ∀ x ∈ levels (joinHash na) leaves i, x.length = 32 := by
  cases i with
  | zero => exact hl
  | succ i =>
    intro x hx
    obtain ⟨p, -, rfl⟩ := List.mem_map.mp hx
    exact na.length_hash _

/-- The hash tells apart what is hashed for two roots, and no leaf is the hash of
two concatenated hashes. -/
structure RootsApart (na : Sodium) (ids₁ ids₂ : List Bytes) : Prop where
  injective : ∀ x ∈ hashedFor na ids₁.length ids₁ ++ hashedFor na ids₂.length ids₂,
    ∀ y ∈ hashedFor na ids₁.length ids₁ ++ hashedFor na ids₂.length ids₂,
      na.hash x = na.hash y → x = y
  leaves : ∀ id ∈ ids₁ ++ ids₂,
    ∀ x ∈ hashedFor na ids₁.length ids₁ ++ hashedFor na ids₂.length ids₂, id ≠ na.hash x

theorem RootsApart.symm {ids₁ ids₂ : List Bytes} (h : RootsApart na ids₁ ids₂) :
    RootsApart na ids₂ ids₁ := by
  constructor
  · intro x hx y hy
    exact h.injective x (by grind) y (by grind)
  · intro id hid x hx
    exact h.leaves id (by grind) x (by grind)

/-- Lists with one root: equal ones, when they are of one length, and otherwise
the longer one has a TXID twice behind its first. -/
theorem same_root {ids₁ ids₂ : List Bytes} (h : RootsApart na ids₁ ids₂) (hne₁ : ids₁ ≠ [])
    (hne₂ : ids₂ ≠ []) (hl₁ : ∀ x ∈ ids₁, x.length = 32) (hl₂ : ∀ x ∈ ids₂, x.length = 32)
    (hroot : Merkle.computeRoot na ids₁.length ids₁ = Merkle.computeRoot na ids₂.length ids₂) :
    (ids₁.length = ids₂.length → ids₁ = ids₂) ∧
      (ids₁.length < ids₂.length →
        ∃ i k x, 0 < i ∧ i < k ∧ ids₂[i]? = some x ∧ ids₂[k]? = some x) := by
  obtain ⟨d₁, hr₁, htwo₁, hin₁⟩ := computeRoot_levels na hne₁ (Nat.le_succ _)
  obtain ⟨d₂, hr₂, htwo₂, hin₂⟩ := computeRoot_levels na hne₂ (Nat.le_succ _)
  let D := hashedFor na ids₁.length ids₁ ++ hashedFor na ids₂.length ids₂
  let S : Set (Bytes × Bytes) := fun p ↦ p.1.length = 32 ∧ p.2.length = 32 ∧ p.1 ++ p.2 ∈ D
  have hinj : ∀ p ∈ S, ∀ q ∈ S, joinHash na p = joinHash na q → p = q := by
    rintro p ⟨hp, -, hpD⟩ q ⟨hq, -, hqD⟩ he
    obtain ⟨h₁, h₂⟩ := List.append_inj (h.injective _ hpD _ hqD he) (hp.trans hq.symm)
    exact Prod.ext h₁ h₂
  have hsep : ∀ x ∈ ids₁ ++ ids₂, ∀ p ∈ S, x ≠ joinHash na p := fun x hx p hp ↦
    h.leaves x hx _ hp.2.2
  have hj {ids : List Bytes} {d : ℕ} (hl : ∀ x ∈ ids, x.length = 32)
      (hin : ∀ i < d, ∀ p ∈ pairs (levels (joinHash na) ids i), p.1 ++ p.2 ∈ D) :
      Joined (joinHash na) S ids d := by
    intro i hi p hp
    obtain ⟨h₁, h₂⟩ := mem_of_mem_pairs hp
    exact ⟨length_of_mem_levels hl i _ h₁, length_of_mem_levels hl i _ h₂, hin i hi p hp⟩
  have hj₁ := hj hl₁ fun i hi p hp ↦ List.mem_append_left _ (hin₁ i hi p hp)
  have hj₂ := hj hl₂ fun i hi p hp ↦ List.mem_append_right _ (hin₂ i hi p hp)
  have htop₁ : Merkle.computeRoot na ids₁.length ids₁ ∈ levels (joinHash na) ids₁ d₁ := by
    simp [hr₁]
  have htop₂ : Merkle.computeRoot na ids₁.length ids₁ ∈ levels (joinHash na) ids₂ d₂ := by
    simp [hr₂, hroot]
  obtain rfl : d₁ = d₂ := by
    rcases Nat.lt_trichotomy d₁ d₂ with hlt | heq | hlt
    · exact absurd htop₂ (levels_disjoint hinj (fun x hx ↦ hsep x (by simp [hx])) hj₁ hj₂ hlt le_rfl
        le_rfl htop₁)
    · exact heq
    · exact absurd htop₁ (levels_disjoint hinj (fun x hx ↦ hsep x (by simp [hx])) hj₂ hj₁ hlt le_rfl
        le_rfl htop₂)
  have htop : levels (joinHash na) ids₁ d₁ = levels (joinHash na) ids₂ d₁ := by
    rw [hr₁, hr₂, hroot]
  exact ⟨fun hlen ↦ leaves_eq hinj hj₁ hj₂ hlen htop, fun hlt ↦
    repeated_leaf hinj hj₁ hj₂ hlt htwo₁ htop⟩

end Root

section Claim

variable {env : Env} {cfg : Config} {chain : List BlockHeader} {cs : MemChainstate}
variable {header : BlockHeader} {height : UInt32} {L L₁ L₂ : List Transaction}
variable {ids ids₁ ids₂ : List Bytes}

def Accepts (env : Env) (cfg : Config) (chain : List BlockHeader) (cs : MemChainstate)
    (header : BlockHeader) (height : UInt32) (txs : List Transaction) : Prop :=
  ∃ r, validateBlock env cfg chain cs ⟨header, txs⟩ height = .ok (some r)

theorem accepts_of_verdict
    (h : (match validateBlock env cfg chain cs ⟨header, L⟩ height with
      | .ok checked => checked.isSome
      | .error _ => false) = true) : Accepts env cfg chain cs header height L := by
  split at h
  next checked hc =>
    obtain ⟨r, rfl⟩ := Option.isSome_iff_exists.mp h
    exact ⟨r, hc⟩
  next => exact absurd h Bool.false_ne_true

theorem forall₂_get {α β : Type} {R : α → β → Prop} {as : List α} {bs : List β}
    (h : List.Forall₂ R as bs) {i : ℕ} {b : β} (hb : bs[i]? = some b) :
    ∃ a, as[i]? = some a ∧ R a b := by
  induction h generalizing i with
  | nil => simp at hb
  | cons hr _ ih =>
    cases i with
    | zero =>
      obtain rfl := Option.some.inj hb
      exact ⟨_, rfl, hr⟩
    | succ i => exact ih hb

theorem length_txid {na : Sodium} (hid : L.mapM (Transaction.txid na) = .ok ids) :
    ∀ x ∈ ids, x.length = 32 := by
  intro x hx
  obtain ⟨i, hi⟩ := List.mem_iff_getElem?.mp hx
  obtain ⟨tx, -, htx⟩ := forall₂_get (forall₂_mapM hid) hi
  obtain ⟨ser, -, rfl⟩ := txid_serialize htx
  exact na.length_hash ser

/-- Keys of the chainstate are 40 bytes long, lists have 64-bit sizes, and the
hash tells the serializations apart. -/
structure Regular (env : Env) (cs : MemChainstate) (txs : List Transaction) : Prop where
  keys : ∀ key rec, cs.storage.lookup key = some rec → key.length = 40
  inputs : ∀ tx ∈ txs, tx.inputs.length < 2 ^ 64
  serialize : ∀ tx ∈ txs, ∀ tx' ∈ txs, ∀ txid, tx.txid env.toSodium = .ok txid →
    tx'.txid env.toSodium = .ok txid → tx.serialize = tx'.serialize

def FreeApart (na : Sodium) (txs : List Transaction) : Prop :=
  ∀ i k tx tx', 0 < i → i < k → txs[i]? = some tx → txs[k]? = some tx' →
    tx.inputs = [] → tx'.inputs = [] → tx.txid na ≠ tx'.txid na

theorem sizeBytes_serialize {tx : Transaction} {ser : Bytes} (h : tx.serialize = .ok ser) :
    ser.take 8 = bigEndian 8 tx.inputs.length := by
  obtain ⟨inputs, -, rfl⟩ := serialize_ok h
  rw [List.append_assoc, List.append_assoc, sizeBytes, List.take_left' (length_bigEndian _ _)]

theorem inputs_nil_of_repeated (hv : Accepts env cfg chain cs header height L)
    (hreg : Regular env cs L) {i k : ℕ} {tx tx' : Transaction} {txid : Bytes} (hi : 0 < i)
    (hik : i < k) (htx : L[i]? = some tx) (htx' : L[k]? = some tx')
    (hid : tx.txid env.toSodium = .ok txid) (hid' : tx'.txid env.toSodium = .ok txid) :
    tx.inputs = [] ∧ tx'.inputs = [] := by
  obtain ⟨r, hv⟩ := hv
  obtain ⟨cb, rest, cks, hb, -⟩ := validateBlock_some hv
  have hL : L = cb :: rest := hb.transactions
  obtain ⟨i, rfl⟩ := Nat.exists_eq_add_of_lt hi
  obtain ⟨k, rfl⟩ := Nat.exists_eq_add_of_lt (Nat.lt_trans hi hik)
  simp only [Nat.zero_add] at hik htx htx'
  rw [hL, List.getElem?_cons_succ] at htx htx'
  have hm : tx ∈ L := by simp [hL, List.mem_of_getElem? htx]
  have hm' : tx' ∈ L := by simp [hL, List.mem_of_getElem? htx']
  obtain ⟨ser, hser, -⟩ := txid_serialize hid
  have hser' := (hreg.serialize tx hm tx' hm' txid hid hid').symm.trans hser
  have hlen : tx.inputs.length = tx'.inputs.length := by
    have := (sizeBytes_serialize hser).symm.trans (sizeBytes_serialize hser')
    exact bigEndian_inj (hreg.inputs tx hm) (hreg.inputs tx' hm') this
  have h32 {tx : Transaction} (htx : tx ∈ rest) : ∀ inp ∈ tx.inputs, inp.txid.length = 32 := by
    intro inp hinp
    obtain ⟨recs, hrecs⟩ := hb.found_of_mem htx
    obtain ⟨rec, -, hrec⟩ := exists_of_forall₂ hrecs hinp
    have := hreg.keys _ _ hrec
    simp only [TransactionInput.key, txidVoutPairToKey, List.length_append,
      length_uint64ToVectorBigEndian] at this
    omega
  cases hin : tx.inputs with
  | nil =>
    rw [hin] at hlen
    exact ⟨rfl, List.length_eq_zero_iff.mp hlen.symm⟩
  | cons inp others =>
    cases hin' : tx'.inputs with
    | nil => simp [hin, hin'] at hlen
    | cons inp' others' =>
      have hkey := key_serialize hser hin (h32 (List.mem_of_getElem? htx) inp (by simp [hin]))
      have hkey' := key_serialize hser' hin' (h32 (List.mem_of_getElem? htx') inp' (by simp [hin']))
      obtain ⟨hi', hgi⟩ := List.getElem?_eq_some_iff.mp htx
      obtain ⟨hk', hgk⟩ := List.getElem?_eq_some_iff.mp htx'
      have hdisj := List.pairwise_iff_getElem.mp (List.nodup_flatMap.mp hb.distinct).2 i k hi' hk'
        (by omega)
      have h₁ : inp.key ∈ keysOf rest[i] := by simp [hgi, keysOf, hin]
      have h₂ : inp.key ∈ keysOf rest[k] := by
        rw [← hkey, hkey']
        simp [hgk, keysOf, hin']
      exact absurd h₂ (hdisj h₁)

/-- Under one header the TXIDs are the same when there are as many of them, and
there are whenever transactions without inputs are not repeated. -/
theorem same_txids_iff
    (hv₁ : Accepts env cfg chain cs header height L₁)
    (hv₂ : Accepts env cfg chain cs header height L₂)
    (hid₁ : L₁.mapM (Transaction.txid env.toSodium) = .ok ids₁)
    (hid₂ : L₂.mapM (Transaction.txid env.toSodium) = .ok ids₂)
    (hapart : RootsApart env.toSodium ids₁ ids₂) :
    (ids₁ = ids₂ ↔ L₁.length = L₂.length) ∧
      (Regular env cs L₁ → Regular env cs L₂ → FreeApart env.toSodium L₁ →
        FreeApart env.toSodium L₂ → ids₁ = ids₂) := by
  have hlen₁ := (forall₂_mapM hid₁).length_eq
  have hlen₂ := (forall₂_mapM hid₂).length_eq
  have hne {L : List Transaction} {ids : List Bytes}
      (hv : Accepts env cfg chain cs header height L)
      (hlen : L.length = ids.length) : ids ≠ [] := by
    obtain ⟨r, hv⟩ := hv
    obtain ⟨cb, rest, cks, hb, -⟩ := validateBlock_some hv
    have hL : L = cb :: rest := hb.transactions
    rintro rfl
    simp [hL] at hlen
  have hroot : Merkle.computeRoot env.toSodium ids₁.length ids₁ =
      Merkle.computeRoot env.toSodium ids₂.length ids₂ := by
    obtain ⟨r₁, hv₁⟩ := hv₁
    obtain ⟨r₂, hv₂⟩ := hv₂
    obtain ⟨txids₁, hx₁, hr₁⟩ := validateBlock_root hv₁
    obtain ⟨txids₂, hx₂, hr₂⟩ := validateBlock_root hv₂
    obtain rfl := Except.ok.inj (hx₁.symm.trans hid₁)
    obtain rfl := Except.ok.inj (hx₂.symm.trans hid₂)
    exact hr₁.symm.trans hr₂
  have hs₁ := same_root hapart (hne hv₁ hlen₁) (hne hv₂ hlen₂) (length_txid hid₁)
    (length_txid hid₂) hroot
  have hs₂ := same_root hapart.symm (hne hv₂ hlen₂) (hne hv₁ hlen₁) (length_txid hid₂)
    (length_txid hid₁) hroot.symm
  have hnone {L : List Transaction} {ids : List Bytes}
      (hv : Accepts env cfg chain cs header height L)
      (hid : L.mapM (Transaction.txid env.toSodium) = .ok ids) (hreg : Regular env cs L)
      (hfree : FreeApart env.toSodium L) :
      ¬ ∃ i k x, 0 < i ∧ i < k ∧ ids[i]? = some x ∧ ids[k]? = some x := by
    rintro ⟨i, k, x, hi, hik, hx, hx'⟩
    obtain ⟨tx, htx, hxi⟩ := forall₂_get (forall₂_mapM hid) hx
    obtain ⟨tx', htx', hxk⟩ := forall₂_get (forall₂_mapM hid) hx'
    obtain ⟨hnil, hnil'⟩ := inputs_nil_of_repeated hv hreg hi hik htx htx' hxi hxk
    exact hfree i k tx tx' hi hik htx htx' hnil hnil' (hxi.trans hxk.symm)
  refine ⟨⟨?_, fun h ↦ hs₁.1 (by omega)⟩, fun hreg₁ hreg₂ hfree₁ hfree₂ ↦ ?_⟩
  · rintro rfl
    omega
  · rcases Nat.lt_trichotomy ids₁.length ids₂.length with hlt | heq | hlt
    · exact absurd (hs₁.2 hlt) (hnone hv₂ hid₂ hreg₂ hfree₂)
    · exact hs₁.1 heq
    · exact absurd (hs₂.2 hlt) (hnone hv₁ hid₁ hreg₁ hfree₁)

/-- A coinbase and two transactions that move nothing. -/
def movingNothing : List Transaction :=
  [coinbaseTransaction sampleKey 50 1, ⟨[], [⟨0, sampleKey⟩]⟩, ⟨[], []⟩]

def movingNothingTwice : List Transaction := movingNothing ++ [⟨[], []⟩]

def sampleIds (txs : List Transaction) : List Bytes :=
  (txs.mapM (Transaction.txid sampleEnv.toSodium)).toOption.getD []

theorem moving_accepted (txs : List Transaction) (h : txs ∈ [movingNothing, movingNothingTwice]) :
    Accepts sampleEnv sampleConfig sampleStart.mainChain.headerChain sampleStart.chainstate
      (sampleBlock sampleGenesis 1 movingNothing).header 1 txs ∧
    txs.mapM (Transaction.txid sampleEnv.toSodium) = .ok (sampleIds txs) := by
  rw [List.mem_cons, List.mem_singleton] at h
  rcases h with rfl | rfl
  · exact ⟨accepts_of_verdict (by decide +kernel), by decide +kernel⟩
  · exact ⟨accepts_of_verdict (by decide +kernel), by decide +kernel⟩

theorem moving_apart : RootsApart sampleEnv.toSodium (sampleIds movingNothing)
    (sampleIds movingNothingTwice) :=
  ⟨by decide +kernel, by decide +kernel⟩

theorem same_txids_iff_moving :
    sampleIds movingNothing = sampleIds movingNothingTwice ↔
      movingNothing.length = movingNothingTwice.length :=
  (same_txids_iff (moving_accepted _ (by simp)).1 (moving_accepted _ (by simp)).1
    (moving_accepted _ (by simp)).2 (moving_accepted _ (by simp)).2 moving_apart).1

theorem repeated_transaction_accepted :
    ¬ ∀ (env : Env) (cfg : Config) (chain : List BlockHeader) (cs : MemChainstate)
      (header : BlockHeader) (height : UInt32) (L₁ L₂ : List Transaction) (ids₁ ids₂ : List Bytes),
      Accepts env cfg chain cs header height L₁ → Accepts env cfg chain cs header height L₂ →
      L₁.mapM (Transaction.txid env.toSodium) = .ok ids₁ →
      L₂.mapM (Transaction.txid env.toSodium) = .ok ids₂ →
      RootsApart env.toSodium ids₁ ids₂ → ids₁ = ids₂ := by
  intro h
  have hsame := h _ _ _ _ _ _ _ _ _ _ (moving_accepted movingNothing (by simp)).1
    (moving_accepted movingNothingTwice (by simp)).1 (moving_accepted _ (by simp)).2
    (moving_accepted _ (by simp)).2 moving_apart
  have hlen : (sampleIds movingNothing).length ≠ (sampleIds movingNothingTwice).length := by
    decide +kernel
  exact hlen (congrArg List.length hsame)

end Claim

end FheBlockchain.Chain.HeaderCommitment
