import FheBlockchain.Core.SigningFacts
import FheBlockchain.Library.Results
import Mathlib.Data.List.Nodup

namespace FheBlockchain.Core.SigningValid

open Transactions Signatures Signing SigningFacts Amounts
open Library Library.Execution

variable {na : Sodium} {mem mem' : Memory} {a : ℕ} {as : List ℕ} {objs : List InputObject}
variable {tx copyTx : SharedTransaction} {orig : ℕ → TransactionInput} {pubkeys : List PublicKey}

def Reads (mem : Memory) (as : List ℕ) (objs : List InputObject) : Prop :=
  List.Forall₂ (fun a obj ↦ mem[a]? = some obj) as objs

def plainOf (objs : List InputObject) (outputs : List TransactionOutput) : Transaction where
  inputs := objs.map InputObject.toTransactionInput
  outputs := outputs

section Copies

theorem mapM_deref (h : Reads mem as objs) : as.mapM deref mem = .ok objs mem := by
  induction h with
  | nil => rfl
  | cons hobj _ ih =>
    rw [List.mapM_cons, run_bind_of_ok (deref_run hobj), run_bind_of_ok ih]
    rfl

theorem Reads.append (h : Reads mem as objs) (rest : Memory) : Reads (mem ++ rest) as objs :=
  h.imp fun a obj hobj ↦ by
    rw [List.getElem?_append_left (List.getElem?_eq_some_iff.mp hobj).1, hobj]

theorem Reads.of_eq (h : Reads mem as objs) (heq : ∀ a ∈ as, mem'[a]? = mem[a]?) :
    Reads mem' as objs :=
  (Results.forall₂_mem h).imp fun _ _ hab ↦ (heq _ hab.1).trans hab.2.2

theorem mapM_copyInput (h : Reads mem as objs) : as.mapM SharedTransaction.copyInput mem =
    .ok (List.range' mem.length as.length) (mem ++ objs) := by
  induction as generalizing mem objs with
  | nil =>
    cases h
    rw [List.append_nil]
    rfl
  | cons a as ih =>
    cases h with
    | cons hobj hrest =>
      rename_i obj objs
      have hcopy : SharedTransaction.copyInput a mem = .ok mem.length (mem ++ [obj]) := by
        rw [SharedTransaction.copyInput, run_bind_of_ok (deref_run hobj)]
        rfl
      have hcopies := ih (Reads.append hrest [obj])
      rw [List.mapM_cons, run_bind_of_ok hcopy, run_bind_of_ok hcopies, List.length_append,
        List.append_assoc]
      rfl

def origin (mem : Memory) (c : ℕ) : TransactionInput :=
  (mem[c]?).elim (.unsigned [] 0) InputObject.toTransactionInput

theorem getElem?_copy (k : ℕ) : (mem ++ objs)[mem.length + k]? = objs[k]? := by
  rw [List.getElem?_append_right (Nat.le_add_right _ _), Nat.add_sub_cancel_left]

theorem map_origin : (List.range' mem.length objs.length).map (origin (mem ++ objs)) =
    objs.map InputObject.toTransactionInput := by
  refine List.ext_getElem (by simp) fun k hk _ ↦ ?_
  have hk' : k < objs.length := by simpa using hk
  rw [List.getElem_map, List.getElem_map, List.getElem_range', Nat.one_mul, origin, getElem?_copy,
    List.getElem?_eq_getElem hk']
  rfl

theorem blank_copies : Blank (List.range' mem.length objs.length) (origin (mem ++ objs))
    ((List.range' mem.length objs.length).foldl
      (fun mem a ↦ edit a TransactionInput.clearSignature mem) (mem ++ objs)) := by
  intro c hc
  obtain ⟨k, hk, rfl⟩ := List.mem_range'.mp hc
  have hobj := @getElem?_copy mem objs (1 * k)
  have hk' : 1 * k < objs.length := by omega
  rw [List.getElem?_eq_getElem hk'] at hobj
  refine ⟨_, edits_inside (f := fun _ ↦ TransactionInput.clearSignature) List.nodup_range' hc hobj,
    .inl ?_⟩
  have horig : origin (mem ++ objs) (mem.length + 1 * k) = (objs[1 * k]).toTransactionInput := by
    rw [origin, hobj]
    rfl
  exact congrArg TransactionInput.clearSignature horig.symm

end Copies

section Loop

theorem verifyCopies_cons {own idx : ℕ} {rest : List (ℕ × ℕ)} {pubkey : PublicKey} {msg : Bytes}
    {obj : InputObject} (hkey : pubkeys[idx]? = some pubkey)
    (hshow : copyTx.showKey a pubkey mem = .ok msg mem') (hread : mem'[own]? = some obj) :
    SharedTransaction.verifyCopies na copyTx pubkeys ((a, own) :: rest) idx mem =
      if na.signVerifyDetached obj.sig msg pubkey then
        SharedTransaction.verifyCopies na copyTx pubkeys rest (idx + 1)
          (edit a TransactionInput.clearSignature mem')
      else .ok false mem' := by
  rw [SharedTransaction.verifyCopies, hkey]
  dsimp only
  rw [run_bind_of_ok hshow, run_bind_of_ok (deref_run hread)]
  cases na.signVerifyDetached obj.sig msg pubkey <;> rfl

theorem verifyInputs_cons {plain : Transaction} (idx : ℕ) {inp : TransactionInput}
    {rest : List (TransactionInput × PublicKey)} {pubkey : PublicKey} {msg : Bytes}
    (hmsg : plain.signedBytes idx pubkey = .ok msg) :
    plain.verifyInputs na ((inp, pubkey) :: rest) idx =
      if na.signVerifyDetached inp.sig msg pubkey then plain.verifyInputs na rest (idx + 1)
      else .ok false := by
  rw [Transaction.verifyInputs, hmsg]
  rfl

/-- The loop over the copies agrees with the check of the plain transaction. -/
theorem verifyCopies_run (na : Sodium) (hnd : copyTx.inputs.Nodup)
    (htxid : ∀ a ∈ copyTx.inputs, (orig a).txid.length = 32)
    (hplain : copyTx.inputs.map orig = objs.map InputObject.toTransactionInput)
    (hkeys : pubkeys.length = objs.length) (hapart : ∀ a ∈ tx.inputs, a ∉ copyTx.inputs)
    (r idx : ℕ) (hr : idx + r = objs.length) (hblank : Blank copyTx.inputs orig mem)
    (hreads : Reads mem tx.inputs objs) :
    ∃ b mem', SharedTransaction.verifyCopies na copyTx pubkeys
        ((copyTx.inputs.zip tx.inputs).drop idx) idx mem = .ok b mem' ∧
      (plain copyTx orig).verifyInputs na
        (((plain copyTx orig).inputs.zip pubkeys).drop idx) idx = .ok b ∧
      Frame copyTx.inputs mem mem' := by
  have hcopies : copyTx.inputs.length = objs.length := by simpa using congrArg List.length hplain
  have hown : tx.inputs.length = objs.length := hreads.length_eq
  have hinputs : (plain copyTx orig).inputs = objs.map InputObject.toTransactionInput := hplain
  induction r generalizing idx mem with
  | zero =>
    have hdone : objs.length ≤ idx := by omega
    refine ⟨true, mem, ?_, ?_, .refl _ _⟩
    · rw [List.drop_eq_nil_of_le (by simp [hcopies, hown, hdone])]
      rfl
    · rw [List.drop_eq_nil_of_le (by simp [hinputs, hkeys, hdone])]
      rfl
  | succ r ih =>
    have hidx : idx < objs.length := by omega
    have hc : idx < copyTx.inputs.length := by omega
    have ho : idx < tx.inputs.length := by omega
    have hk : idx < pubkeys.length := by omega
    obtain ⟨mid, hshow, hblank', hframe⟩ := showKey_run pubkeys[idx] hnd htxid
      (List.getElem_mem hc) hblank
    have hkeeps (b : ℕ) (hb : b ∈ tx.inputs) : mid[b]? = mem[b]? := hframe.outside b (hapart b hb)
    have hread : mid[tx.inputs[idx]]? = some objs[idx] := by
      rw [hkeeps _ (List.getElem_mem ho)]
      exact (List.forall₂_iff_get.mp hreads).2 idx ho hidx
    have hmsg := signedBytes_eq pubkeys[idx] htxid (a := copyTx.inputs[idx])
    rw [hnd.idxOf_getElem] at hmsg
    have hheap : (copyTx.inputs.zip tx.inputs).drop idx = (copyTx.inputs[idx], tx.inputs[idx]) ::
        (copyTx.inputs.zip tx.inputs).drop (idx + 1) := by
      rw [List.drop_eq_getElem_cons (by simp [hc, ho]), List.getElem_zip]
    have hpure : ((plain copyTx orig).inputs.zip pubkeys).drop idx =
        (objs[idx].toTransactionInput, pubkeys[idx]) ::
          ((plain copyTx orig).inputs.zip pubkeys).drop (idx + 1) := by
      rw [List.drop_eq_getElem_cons (by simp [hinputs, hidx, hk]), List.getElem_zip]
      simp [hinputs]
    rw [hheap, hpure, verifyCopies_cons (List.getElem?_eq_getElem hk) hshow hread,
      verifyInputs_cons _ hmsg]
    have hedit : Frame copyTx.inputs mid
        (edit copyTx.inputs[idx] TransactionInput.clearSignature mid) :=
      frame_edit (List.getElem_mem hc)
    have hreads' : Reads (edit copyTx.inputs[idx] TransactionInput.clearSignature mid) tx.inputs
        objs :=
      hreads.of_eq fun b hb ↦ (hedit.outside b (hapart b hb)).trans (hkeeps b hb)
    obtain ⟨b, last, hrun, hb, hlast⟩ := ih (idx + 1) (by omega) hblank' hreads'
    split_ifs
    · exact ⟨b, last, hrun, hb, (hframe.trans hedit).trans hlast⟩
    · exact ⟨false, mid, rfl, rfl, hframe⟩

end Loop

section Whole

theorem validateTransaction_plain (na : Sodium) (pubkeys : List PublicKey)
    (hreads : Reads mem tx.inputs objs)
    (htxid : ∀ obj ∈ objs, obj.txid.length = 32) (hkeys : pubkeys.length = objs.length) :
    ∃ b mem', tx.validateTransaction na pubkeys mem = .ok b mem' ∧
      (plainOf objs tx.outputs).validateTransaction na pubkeys (objs.map InputObject.amount) =
        .ok b ∧ ∀ a < mem.length, mem'[a]? = mem[a]? := by
  have hall : objs.all (fun obj ↦ obj.isSigned) =
      (plainOf objs tx.outputs).inputs.all TransactionInput.isSigned := by
    simp [plainOf, List.all_map, Function.comp_def]
  rw [SharedTransaction.validateTransaction, run_bind_of_ok (mapM_deref hreads), hall,
    Transaction.validateTransaction]
  by_cases hsigned : (!(plainOf objs tx.outputs).inputs.all TransactionInput.isSigned) = true
  · rw [if_pos hsigned, if_pos hsigned]
    exact ⟨false, mem, rfl, rfl, fun _ _ ↦ rfl⟩
  have hout : (plainOf objs tx.outputs).outAmounts = tx.outputs.map TransactionOutput.amount := rfl
  rw [if_neg hsigned, if_neg hsigned, hout]
  by_cases hfunds : Transaction.total (objs.map InputObject.amount) <
      Transaction.total (tx.outputs.map TransactionOutput.amount)
  · rw [if_pos hfunds, if_pos hfunds]
    exact ⟨false, mem, rfl, rfl, fun _ _ ↦ rfl⟩
  rw [if_neg hfunds, if_neg hfunds]
  let copyTx : SharedTransaction := { tx with inputs := List.range' mem.length objs.length }
  have hcopy : tx.copy mem = .ok copyTx (mem ++ objs) := by
    rw [SharedTransaction.copy, run_bind_of_ok (mapM_copyInput hreads), hreads.length_eq]
    rfl
  have hplain : plain copyTx (origin (mem ++ objs)) = plainOf objs tx.outputs :=
    congrArg (Transaction.mk · tx.outputs) map_origin
  have hold : ∀ a ∈ tx.inputs, a < mem.length := by
    intro a ha
    obtain ⟨obj, -, hobj⟩ := Results.exists_of_forall₂ hreads ha
    exact (List.getElem?_eq_some_iff.mp hobj).1
  have hnew : ∀ a < mem.length, a ∉ copyTx.inputs := by
    intro a ha hmem
    obtain ⟨k, -, rfl⟩ := List.mem_range'.mp hmem
    omega
  have hcleared := frame_edits (f := fun _ ↦ TransactionInput.clearSignature) (mem ++ objs)
    (List.Subset.refl copyTx.inputs)
  have hkeeps : ∀ a < mem.length, (copyTx.inputs.foldl
      (fun mem a ↦ edit a TransactionInput.clearSignature mem) (mem ++ objs))[a]? = mem[a]? := by
    intro a ha
    rw [hcleared.outside a (hnew a ha), List.getElem?_append_left ha]
  have hreads' : Reads (copyTx.inputs.foldl
      (fun mem a ↦ edit a TransactionInput.clearSignature mem) (mem ++ objs)) tx.inputs objs :=
    hreads.of_eq fun a ha ↦ hkeeps a (hold a ha)
  have htxid' : ∀ a ∈ copyTx.inputs, (origin (mem ++ objs) a).txid.length = 32 := by
    intro a ha
    have hmem := List.mem_map_of_mem (f := origin (mem ++ objs)) ha
    rw [show copyTx.inputs.map _ = _ from map_origin] at hmem
    obtain ⟨obj, hobj, he⟩ := List.mem_map.mp hmem
    rw [← he]
    exact htxid obj hobj
  obtain ⟨b, mem', hrun, hb, hframe⟩ := verifyCopies_run na
    List.nodup_range' htxid' map_origin hkeys (fun a ha ↦ hnew a (hold a ha)) objs.length 0
    (Nat.zero_add _) blank_copies hreads'
  refine ⟨b, mem', ?_, ?_, fun a ha ↦ (hframe.outside a (hnew a ha)).trans (hkeeps a ha)⟩
  · rw [run_bind_of_ok hcopy,
      run_bind_of_ok (forM_edit (f := fun _ ↦ TransactionInput.clearSignature) _ _)]
    exact hrun
  · rw [hplain] at hb
    exact hb

end Whole

section Unchanged

variable {base : Memory}

theorem prefix_edit {f : TransactionInput → TransactionInput} (h : base <+: mem)
    (ha : base.length ≤ a) : base <+: edit a f mem := by
  rw [List.prefix_iff_getElem?] at h ⊢
  intro k hk
  rw [edit_of_ne (by omega), h k hk]

theorem post_serialize_prefix (hnew : ∀ a ∈ copyTx.inputs, base.length ≤ a) (h : base <+: mem) :
    Post copyTx.serialize mem (fun _ mem' ↦ base <+: mem') fun _ mem' ↦ base <+: mem' := by
  have hloop : Post (copyTx.inputs.mapM serializeInput) mem (fun _ mem' ↦ base <+: mem')
      fun _ mem' ↦ base <+: mem' := by
    refine post_mapM (fun a ha m hm ↦ ?_) h
    cases hobj : m[a]? with
    | none =>
      have hnull : serializeInput a m = .error (.abort .nullPointer) m := by
        refine run_bind_of_error ?_
        rw [deref, run_bind_get, hobj]
        rfl
      rw [Post, hnull]
      trivial
    | some obj =>
      rw [Post, serializeInput, run_bind_of_ok (deref_run hobj)]
      exact post_bind_ofExcept (fun _ _ ↦ prefix_edit hm (hnew a ha)) fun _ _ ↦ hm
  exact hloop.bind fun _ _ h ↦ h

theorem post_showKey_grows {pubkey : PublicKey} (hnew : ∀ a ∈ copyTx.inputs, base.length ≤ a)
    (ha : base.length ≤ a) (h : base <+: mem) :
    Post (copyTx.showKey a pubkey) mem (fun _ mem' ↦ base <+: mem') fun _ mem' ↦ base <+: mem' :=
  post_serialize_prefix hnew (prefix_edit (prefix_edit h ha) ha)

theorem post_deref (a : ℕ) (mem : Memory) :
    Post (deref a) mem (fun _ mem' ↦ mem' = mem) fun _ _ ↦ False := by
  refine post_bind_get.mpr ?_
  cases mem[a]? with
  | none => exact trivial
  | some obj => exact rfl

theorem post_verifyCopies_prefix {pairs : List (ℕ × ℕ)} {idx : ℕ}
    (hnew : ∀ a ∈ copyTx.inputs, base.length ≤ a) (hpairs : ∀ p ∈ pairs, p.1 ∈ copyTx.inputs)
    (h : base <+: mem) :
    Post (SharedTransaction.verifyCopies na copyTx pubkeys pairs idx) mem
      (fun _ mem' ↦ base <+: mem') fun _ mem' ↦ base <+: mem' := by
  induction pairs generalizing idx mem with
  | nil => exact h
  | cons p pairs ih =>
    have ha := hnew p.1 (hpairs p List.mem_cons_self)
    rw [SharedTransaction.verifyCopies]
    cases pubkeys[idx]? with
    | none => exact trivial
    | some pubkey =>
      refine (post_showKey_grows hnew ha h).bind fun msg mid hmid ↦ ?_
      refine ((post_deref p.2 mid).mono (fun _ _ hm ↦ hm) fun _ _ hf ↦ hf.elim).bind
        fun obj m hm ↦ ?_
      subst hm
      split_ifs
      · exact hmid
      · exact ih (fun q hq ↦ hpairs q (List.mem_cons_of_mem p hq)) (prefix_edit hmid ha)

theorem post_copy (tx : SharedTransaction) (mem : Memory) :
    Post tx.copy mem (fun copyTx mem' ↦ mem <+: mem' ∧ ∀ a ∈ copyTx.inputs, mem.length ≤ a)
      fun _ _ ↦ False := by
  have hloop (as : List ℕ) (m : Memory) (hm : mem <+: m) :
      Post (as.mapM SharedTransaction.copyInput) m
        (fun cs mem' ↦ mem <+: mem' ∧ ∀ a ∈ cs, mem.length ≤ a) fun _ _ ↦ False := by
    induction as generalizing m with
    | nil => exact ⟨hm, fun a ha ↦ absurd ha List.not_mem_nil⟩
    | cons a as ih =>
      have hcopy : Post (SharedTransaction.copyInput a) m
          (fun c mem' ↦ mem <+: mem' ∧ mem.length ≤ c) fun _ _ ↦ False := by
        refine (post_deref a m).bind fun obj m' hm' ↦ ?_
        subst hm'
        exact ⟨hm.trans (List.prefix_append _ _), hm.length_le⟩
      rw [List.mapM_cons]
      refine hcopy.bind fun c m' hc ↦ (ih m' hc.1).bind fun cs m'' hcs ↦ ⟨hcs.1, fun b hb ↦ ?_⟩
      rcases List.mem_cons.mp hb with rfl | hb
      · exact hc.2
      · exact hcs.2 b hb
  exact (hloop tx.inputs mem (List.prefix_refl mem)).bind fun _ _ h ↦ h

theorem post_validateTransaction (na : Sodium) (pubkeys : List PublicKey)
    (tx : SharedTransaction) (mem : Memory) :
    Post (tx.validateTransaction na pubkeys) mem (fun _ mem' ↦ mem <+: mem')
      fun _ mem' ↦ mem <+: mem' := by
  have hread : Post (tx.inputs.mapM deref) mem (fun _ mem' ↦ mem' = mem)
      fun _ mem' ↦ mem <+: mem' :=
    post_mapM (fun a _ m hm ↦ hm ▸ (post_deref a m).mono (fun _ _ h ↦ h) fun _ _ h ↦ h.elim) rfl
  refine hread.bind fun objs m hm ↦ ?_
  subst hm
  split_ifs
  · exact List.prefix_refl m
  · exact List.prefix_refl m
  refine ((post_copy tx m).mono (fun _ _ h ↦ h) fun _ _ h ↦ h.elim).bind fun copyTx mid hmid ↦ ?_
  obtain ⟨hbegins, hnew⟩ := hmid
  have hclear : Post (copyTx.inputs.forM fun a ↦ update a TransactionInput.clearSignature) mid
      (fun _ mem' ↦ m <+: mem') fun _ mem' ↦ m <+: mem' :=
    post_forM (fun a ha _ h ↦ post_modify.mpr (prefix_edit h (hnew a ha))) hbegins
  refine hclear.bind fun _ m' hm' ↦ post_verifyCopies_prefix hnew (fun p hp ↦ ?_) hm'
  exact (List.of_mem_zip hp).1

end Unchanged

section SignAndValidate

/-- An input that has not been signed. A serialization may have left zeros in the
place of its signature. -/
structure Unsigned (inp : TransactionInput) : Prop where
  txid : inp.txid.length = 32
  isSigned : inp.isSigned = false
  sigSize : inp.sigSize = signBytes
  sig : inp.sig = [] ∨ inp.sig = zeros 64

theorem Unsigned.blank {inp : TransactionInput} (h : Unsigned inp) :
    inp = inp.clearSignature ∨ inp = fill inp.clearSignature := by
  obtain ⟨-, hflag, hsize, hsig⟩ := h
  cases inp
  simp only at hflag hsize hsig
  subst hflag hsize
  rcases hsig with rfl | rfl
  · exact .inl rfl
  · exact .inr rfl

theorem signedBytes_congr {tx₁ tx₂ : Transaction} (hin : tx₁.inputs.map TransactionInput.clearSignature =
    tx₂.inputs.map TransactionInput.clearSignature) (hout : tx₁.outputs = tx₂.outputs) (idx : ℕ)
    (pubkey : PublicKey) : tx₁.signedBytes idx pubkey = tx₂.signedBytes idx pubkey := by
  rw [Transaction.signedBytes, Transaction.signedBytes, hin, Transaction.serialize,
    Transaction.serialize, hout]

theorem verifyInputs_true {plain : Transaction} {items : List (TransactionInput × PublicKey)}
    {idx : ℕ} (h : ∀ j item, items[j]? = some item → ∃ msg,
      plain.signedBytes (idx + j) item.2 = .ok msg ∧
        na.signVerifyDetached item.1.sig msg item.2 = true) :
    plain.verifyInputs na items idx = .ok true := by
  induction items generalizing idx with
  | nil => rfl
  | cons item items ih =>
    obtain ⟨msg, hmsg, hverify⟩ := h 0 item rfl
    obtain ⟨inp, pubkey⟩ := item
    rw [verifyInputs_cons idx hmsg, if_pos hverify]
    refine ih fun j other hj ↦ ?_
    have hnext := h (j + 1) other hj
    rwa [← Nat.add_assoc, Nat.add_right_comm] at hnext

theorem exists_reads (h : ∀ a ∈ as, ∃ obj, mem[a]? = some obj) : ∃ objs, Reads mem as objs := by
  induction as with
  | nil => exact ⟨[], .nil⟩
  | cons a as ih =>
    obtain ⟨obj, hobj⟩ := h a List.mem_cons_self
    obtain ⟨objs, hobjs⟩ := ih fun b hb ↦ h b (List.mem_cons_of_mem a hb)
    exact ⟨obj :: objs, .cons hobj hobjs⟩

def amountsAt (mem : Memory) (tx : SharedTransaction) : List UInt64 :=
  (tx.inputs.filterMap fun a ↦ mem[a]?).map InputObject.amount

theorem filterMap_reads (h : Reads mem as objs) : as.filterMap (fun a ↦ mem[a]?) = objs := by
  induction h with
  | nil => rfl
  | cons hobj _ ih => rw [List.filterMap_cons, hobj, ih]

theorem amountsAt_reads (h : Reads mem tx.inputs objs) :
    amountsAt mem tx = objs.map InputObject.amount := by
  rw [amountsAt, filterMap_reads h]

theorem amountsAt_frame (h : Frame as mem mem') : amountsAt mem' tx = amountsAt mem tx := by
  have hat (a : ℕ) : (mem'[a]?).map InputObject.amount = (mem[a]?).map InputObject.amount := by
    rw [← List.getElem?_map, ← List.getElem?_map, h.amounts]
  rw [amountsAt, amountsAt, List.map_filterMap, List.map_filterMap]
  exact List.filterMap_congr fun a _ ↦ hat a

theorem plainOf_valid {na : Signer} {pubkey : PublicKey} {privkey : Vector UInt8 64}
    (hpair : ∀ msg, na.signVerifyDetached (na.signDetached msg privkey).toList msg pubkey = true)
    (hnd : tx.inputs.Nodup) (htxid : ∀ a ∈ tx.inputs, (orig a).txid.length = 32)
    (hobjs : objs.map InputObject.toTransactionInput = tx.inputs.map fun a ↦
      signed (orig a) (na.signDetached (signedMessage tx orig a pubkey) privkey))
    (hfunds : Transaction.total (tx.outputs.map TransactionOutput.amount) ≤
      Transaction.total (objs.map InputObject.amount)) :
    (plainOf objs tx.outputs).validateTransaction na.toSodium
      (List.replicate tx.inputs.length pubkey) (objs.map InputObject.amount) = .ok true := by
  have hall : (plainOf objs tx.outputs).inputs.all TransactionInput.isSigned = true := by
    rw [plainOf, hobjs, List.all_map]
    exact List.all_eq_true.mpr fun _ _ ↦ rfl
  have hnot : ¬ Transaction.total (objs.map InputObject.amount) <
      Transaction.total (plainOf objs tx.outputs).outAmounts := UInt64.not_lt.mpr hfunds
  rw [Transaction.validateTransaction, hall, if_neg (by simp), if_neg hnot]
  refine verifyInputs_true fun j item hj ↦ ?_
  obtain ⟨hin, hkey⟩ := List.getElem?_zip_eq_some.mp hj
  have hkey' : pubkey = item.2 := by
    obtain ⟨hlt, hget⟩ := List.getElem?_eq_some_iff.mp hkey
    rwa [List.getElem_replicate] at hget
  rw [plainOf, hobjs, List.getElem?_map, Option.map_eq_some_iff] at hin
  obtain ⟨a, ha, hitem⟩ := hin
  obtain ⟨hlt, rfl⟩ := List.getElem?_eq_some_iff.mp ha
  have hmsg := signedBytes_eq pubkey htxid (a := tx.inputs[j])
  rw [hnd.idxOf_getElem] at hmsg
  refine ⟨signedMessage tx orig tx.inputs[j] pubkey, ?_, ?_⟩
  · rw [Nat.zero_add, ← hkey', ← hmsg]
    have hcleared : (plainOf objs tx.outputs).inputs.map TransactionInput.clearSignature =
        (plain tx orig).inputs.map TransactionInput.clearSignature := by
      rw [plainOf, hobjs, plain, List.map_map, List.map_map]
      rfl
    exact signedBytes_congr hcleared rfl j pubkey
  · rw [← hitem, ← hkey']
    exact hpair _

def SignedBy (na : Signer) (pubkey : PublicKey) (privkey : Vector UInt8 64)
    (tx : SharedTransaction) (orig : ℕ → TransactionInput) (mem : Memory) : Prop :=
  ∀ a ∈ tx.inputs, ∃ obj, mem[a]? = some obj ∧ obj.toTransactionInput =
    signed (orig a) (na.signDetached (signedMessage tx orig a pubkey) privkey)

theorem txid_origin
    (hunsigned : ∀ a ∈ as, ∃ obj, mem[a]? = some obj ∧ Unsigned obj.toTransactionInput) :
    ∀ a ∈ as, (origin mem a).txid.length = 32 := by
  intro a ha
  obtain ⟨obj, hobj, hun⟩ := hunsigned a ha
  rw [origin, hobj]
  exact hun.txid

theorem sign_unsigned (na : Signer) (pubkey : PublicKey) (privkey : Vector UInt8 64)
    (hnd : tx.inputs.Nodup)
    (hunsigned : ∀ a ∈ tx.inputs, ∃ obj, mem[a]? = some obj ∧ Unsigned obj.toTransactionInput) :
    ∃ mem₁, tx.sign na pubkey privkey mem = .ok () mem₁ ∧ Frame tx.inputs mem mem₁ ∧
      SignedBy na pubkey privkey tx (origin mem) mem₁ := by
  have hblank : Blank tx.inputs (origin mem) mem := by
    intro a ha
    obtain ⟨obj, hobj, hun⟩ := hunsigned a ha
    refine ⟨obj, hobj, ?_⟩
    simp only [origin, hobj, Option.elim_some]
    exact hun.blank
  exact sign_run na pubkey privkey hnd (txid_origin hunsigned) hblank

theorem checkUnsigned_signed (hreads : Reads mem as objs)
    (h : ∃ obj ∈ objs, obj.isSigned = true) :
    as.forM SharedTransaction.checkUnsigned mem =
      .error (invalidArgument "Cannot sign already signed inputs.") mem := by
  induction hreads with
  | nil => simp at h
  | @cons a obj as objs hobj _ ih =>
    rw [forM_cons, SharedTransaction.checkUnsigned, run_bind_of_ok (deref_run hobj)]
    cases hflag : obj.isSigned with
    | true => rfl
    | false =>
      have hrest : ∃ obj ∈ objs, obj.isSigned = true := by
        obtain ⟨obj', hmem, hsigned⟩ := h
        rcases List.mem_cons.mp hmem with rfl | hmem
        · exact absurd (hflag.symm.trans hsigned) Bool.false_ne_true
        · exact ⟨obj', hmem, hsigned⟩
      exact ih hrest

theorem sign_signed (na : Signer) (pubkey : PublicKey) (privkey : Vector UInt8 64)
    (hreads : Reads mem tx.inputs objs) (h : ∃ obj ∈ objs, obj.isSigned = true) :
    tx.sign na pubkey privkey mem =
      .error (invalidArgument "Cannot sign already signed inputs.") mem :=
  run_bind_of_error (checkUnsigned_signed hreads h)

theorem validate_signedBy {na : Signer} {pubkey : PublicKey} {privkey : Vector UInt8 64}
    (hpair : ∀ msg, na.signVerifyDetached (na.signDetached msg privkey).toList msg pubkey = true)
    (hnd : tx.inputs.Nodup) (htxid : ∀ a ∈ tx.inputs, (orig a).txid.length = 32)
    (hsigned : SignedBy na pubkey privkey tx orig mem)
    (hfunds : Transaction.total (tx.outputs.map TransactionOutput.amount) ≤
      Transaction.total (amountsAt mem tx)) :
    ∃ mem', tx.validateTransaction na.toSodium (List.replicate tx.inputs.length pubkey) mem =
      .ok true mem' := by
  obtain ⟨objs, hreads⟩ := exists_reads fun a ha ↦ by
    obtain ⟨obj, hobj, -⟩ := hsigned a ha
    exact ⟨obj, hobj⟩
  have hobjs : objs.map InputObject.toTransactionInput = tx.inputs.map fun a ↦
      signed (orig a) (na.signDetached (signedMessage tx orig a pubkey) privkey) := by
    rw [← List.forall₂_eq_eq_eq, List.forall₂_map_left_iff, List.forall₂_map_right_iff]
    refine (Results.forall₂_mem hreads).flip.imp fun obj a h ↦ ?_
    obtain ⟨obj', hobj', he⟩ := hsigned a h.1
    rw [h.2.2] at hobj'
    rw [Option.some.inj hobj', he]
  have htxids : ∀ obj ∈ objs, obj.txid.length = 32 := by
    intro obj hobj
    have hmem := List.mem_map_of_mem (f := InputObject.toTransactionInput) hobj
    rw [hobjs] at hmem
    obtain ⟨a, ha, he⟩ := List.mem_map.mp hmem
    rw [← he]
    exact htxid a ha
  rw [amountsAt_reads hreads] at hfunds
  have hvalid := plainOf_valid hpair hnd htxid hobjs hfunds
  obtain ⟨b, mem', hrun, hplain, -⟩ := validateTransaction_plain na.toSodium
    (List.replicate tx.inputs.length pubkey) hreads htxids (by simp [hreads.length_eq])
  rw [hvalid] at hplain
  obtain rfl := Except.ok.inj hplain
  exact ⟨mem', hrun⟩

theorem funds_of_validate (hreads : Reads mem tx.inputs objs)
    (h : tx.validateTransaction na pubkeys mem = .ok true mem') :
    Transaction.total (tx.outputs.map TransactionOutput.amount) ≤
      Transaction.total (objs.map InputObject.amount) := by
  rw [SharedTransaction.validateTransaction, run_bind_of_ok (mapM_deref hreads)] at h
  by_contra hnot
  rw [if_pos (UInt64.not_le.mp hnot)] at h
  split_ifs at h <;> simp at h

/-- What `sign` has signed, `validate_transaction` accepts with the same public
key for each input, and leaves as it is. -/
theorem signed_validates (na : Signer) (pubkey : PublicKey) (privkey : Vector UInt8 64)
    (hpair : ∀ msg, na.signVerifyDetached (na.signDetached msg privkey).toList msg pubkey = true)
    (tx : SharedTransaction) (mem : Memory) (hnd : tx.inputs.Nodup)
    (hunsigned : ∀ a ∈ tx.inputs, ∃ obj, mem[a]? = some obj ∧ Unsigned obj.toTransactionInput)
    (hfunds : Transaction.total (tx.outputs.map TransactionOutput.amount) ≤
      Transaction.total (amountsAt mem tx)) :
    (∃ mem₁ mem₂, tx.sign na pubkey privkey mem = .ok () mem₁ ∧
      tx.validateTransaction na.toSodium (List.replicate tx.inputs.length pubkey) mem₁ =
        .ok true mem₂) ∧
    ∀ mem₁ pubkeys b mem₂, tx.validateTransaction na.toSodium pubkeys mem₁ = .ok b mem₂ →
      ∀ a < mem₁.length, mem₂[a]? = mem₁[a]? := by
  constructor
  · obtain ⟨mem₁, hsign, hframe, hsigned⟩ := sign_unsigned na pubkey privkey hnd hunsigned
    rw [← amountsAt_frame hframe] at hfunds
    obtain ⟨mem₂, hvalid⟩ := validate_signedBy hpair hnd (txid_origin hunsigned) hsigned hfunds
    exact ⟨mem₁, mem₂, hsign, hvalid⟩
  · intro mem₁ pubkeys b mem₂ hrun a ha
    have hpost := post_validateTransaction na.toSodium pubkeys tx mem₁
    rw [Post, hrun] at hpost
    rw [List.prefix_iff_getElem?.mp hpost a ha, List.getElem?_eq_getElem ha]

def sampleSigner : Signer where
  toSodium := sampleSodium
  signDetached _ _ := Vector.replicate 64 0

def sampleMemory : Memory :=
  [⟨.unsigned (zeros 32) 0, 5⟩, ⟨fill (.unsigned (zeros 32) 1), 6⟩]

theorem signed_validates_sample : ∃ mem₁ mem₂,
    SharedTransaction.sign sampleSigner ⟨[1, 0], [⟨10, Vector.replicate 32 0⟩]⟩
      (Vector.replicate 32 0) (Vector.replicate 64 0) sampleMemory = .ok () mem₁ ∧
    SharedTransaction.validateTransaction sampleSodium ⟨[1, 0], [⟨10, Vector.replicate 32 0⟩]⟩
      [Vector.replicate 32 0, Vector.replicate 32 0] mem₁ = .ok true mem₂ := by
  refine (signed_validates sampleSigner _ _ (fun _ ↦ rfl) ⟨[1, 0], _⟩ sampleMemory
    (by decide) (fun a ha ↦ ?_) (by decide)).1
  rcases List.mem_cons.mp ha with rfl | ha
  · exact ⟨_, rfl, rfl, rfl, rfl, .inr rfl⟩
  · obtain rfl := List.mem_singleton.mp ha
    exact ⟨_, rfl, rfl, rfl, rfl, .inl rfl⟩

end SignAndValidate

end FheBlockchain.Core.SigningValid
