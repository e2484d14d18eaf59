import FheBlockchain.Core.Amounts
import FheBlockchain.Core.Signatures
import FheBlockchain.Core.Signing

namespace FheBlockchain.Core.SigningFacts

open Transactions Signatures Signing Amounts
open Library.Execution

variable {mem mem' : Memory} {a b : ℕ} {as : List ℕ} {want want' : ℕ → TransactionInput}

section Inputs

variable {inp : TransactionInput}

theorem sigField_fill : sigField (fill inp) = sigField inp := by
  rw [fill]
  split_ifs with h
  · rw [sigField, sigField, if_pos h]
    split_ifs <;> rfl
  · rfl

theorem fill_fields : (fill inp).txid = inp.txid ∧ (fill inp).key = inp.key ∧
    (fill inp).sigSize = inp.sigSize ∧ (fill inp).clearSignature = inp.clearSignature := by
  rw [fill]
  split_ifs <;> exact ⟨rfl, rfl, rfl, rfl⟩

theorem fill_fill : fill (fill inp) = fill inp := by
  by_cases h : (fill inp).sig = []
  · rw [fill, if_pos h]
    have hsig : sigField (fill inp) = sigField inp := sigField_fill
    rw [sigField, if_pos h] at hsig
    rw [hsig, sigField, fill]
    split_ifs <;> rfl
  · rw [fill, if_neg h]

theorem serialize_fill (h : Fitting inp) : (fill inp).serialize = .ok (frame inp) := by
  have hfit : Fitting (fill inp) := by
    refine ⟨fill_fields.1.symm ▸ h.txid, ?_⟩
    rw [sigField_fill, fill_fields.2.2.1]
    exact h.sig
  rw [serialize_fitting hfit, frame, frame, sigField_fill, fill_fields.2.1]

end Inputs

/-- Up to zeros that have been filled in, the given inputs lie at the given
addresses. -/
def Holds (as : List ℕ) (want : ℕ → TransactionInput) (mem : Memory) : Prop :=
  ∀ a ∈ as, ∃ obj, mem[a]? = some obj ∧
    (obj.toTransactionInput = want a ∨ obj.toTransactionInput = fill (want a))

/-- Only inputs at the given addresses have changed, and no amounts. -/
structure Frame (as : List ℕ) (mem mem' : Memory) : Prop where
  amounts : mem'.map InputObject.amount = mem.map InputObject.amount
  outside : ∀ b, b ∉ as → mem'[b]? = mem[b]?

theorem Frame.refl (as : List ℕ) (mem : Memory) : Frame as mem mem := ⟨rfl, fun _ _ ↦ rfl⟩

theorem Frame.trans {mem'' : Memory} (h : Frame as mem mem') (h' : Frame as mem' mem'') :
    Frame as mem mem'' :=
  ⟨h'.amounts.trans h.amounts, fun b hb ↦ (h'.outside b hb).trans (h.outside b hb)⟩

section Updates

variable {f : TransactionInput → TransactionInput}

theorem edit_self {obj : InputObject} (h : mem[a]? = some obj) :
    (edit a f mem)[a]? = some { obj with toTransactionInput := f obj.toTransactionInput } := by
  simp [edit, h]

theorem edit_of_ne (h : b ≠ a) : (edit a f mem)[b]? = mem[b]? := by
  simp [edit, Ne.symm h]

theorem frame_edit (ha : a ∈ as) : Frame as mem (edit a f mem) := by
  refine ⟨List.ext_getElem? fun k ↦ ?_, fun b hb ↦ edit_of_ne ?_⟩
  · rw [edit, List.getElem?_map, List.getElem?_map, List.getElem?_modify]
    cases mem[k]? with
    | none => rfl
    | some obj => by_cases he : a = k <;> simp [he]
  · intro he
    exact hb (he ▸ ha)

theorem holds_edit (h : Holds as want mem)
    (hf : ∀ inp, inp = want a ∨ inp = fill (want a) → f inp = want' a ∨ f inp = fill (want' a))
    (hne : ∀ b ∈ as, b ≠ a → want' b = want b) : Holds as want' (edit a f mem) := by
  intro b hb
  obtain ⟨obj, hobj, hinp⟩ := h b hb
  by_cases he : b = a
  · subst he
    exact ⟨_, edit_self hobj, hf _ hinp⟩
  · refine ⟨obj, (edit_of_ne he).trans hobj, ?_⟩
    rwa [hne b hb he]

end Updates

theorem deref_run {obj : InputObject} (h : mem[a]? = some obj) : deref a mem = .ok obj mem := by
  rw [deref, run_bind_get, h]
  rfl

theorem serializeInputs_run (h : Holds as want mem) (hfit : ∀ a ∈ as, Fitting (want a)) :
    ∃ mem', as.mapM serializeInput mem = .ok (as.map fun a ↦ frame (want a)) mem' ∧
      Holds as want mem' ∧ Frame as mem mem' := by
  refine run_mapM (I := fun mem' ↦ Holds as want mem' ∧ Frame as mem mem') (fun a ha mid hmid ↦ ?_)
    ⟨h, .refl as mem⟩
  obtain ⟨hholds, hframe⟩ := hmid
  obtain ⟨obj, hobj, hinp⟩ := hholds a ha
  have hser : obj.toTransactionInput.serialize = .ok (frame (want a)) := by
    rcases hinp with he | he
    · rw [he, serialize_fitting (hfit a ha)]
    · rw [he, serialize_fill (hfit a ha)]
  refine ⟨edit a fill mid, ?_, ?_, hframe.trans (frame_edit ha)⟩
  · rw [serializeInput, run_bind_of_ok (deref_run hobj), hser]
    rfl
  · refine holds_edit hholds (fun inp hinp ↦ .inr ?_) fun _ _ _ ↦ rfl
    rcases hinp with rfl | rfl
    · rfl
    · exact fill_fill

section Transaction

variable {tx : SharedTransaction} {orig : ℕ → TransactionInput} {pubkey : PublicKey}

def plain (tx : SharedTransaction) (orig : ℕ → TransactionInput) : Transaction where
  inputs := tx.inputs.map orig
  outputs := tx.outputs

def Blank (as : List ℕ) (orig : ℕ → TransactionInput) (mem : Memory) : Prop :=
  Holds as (fun a ↦ (orig a).clearSignature) mem

def signedMessage (tx : SharedTransaction) (orig : ℕ → TransactionInput) (a : ℕ)
    (pubkey : PublicKey) : Bytes :=
  encoding { plain tx orig with
    inputs := shownInputs (plain tx orig) (tx.inputs.idxOf a) pubkey }

theorem signedBytes_eq (pubkey : PublicKey)
    (htxid : ∀ a ∈ tx.inputs, (orig a).txid.length = 32) :
    (plain tx orig).signedBytes (tx.inputs.idxOf a) pubkey =
      .ok (signedMessage tx orig a pubkey) := by
  refine serialize_of_fitting (fitting_shown _ _ fun inp hinp ↦ ?_)
  obtain ⟨b, hb, rfl⟩ := List.mem_map.mp hinp
  exact htxid b hb

theorem shownInputs_map (hnd : tx.inputs.Nodup) (ha : a ∈ tx.inputs) :
    shownInputs (plain tx orig) (tx.inputs.idxOf a) pubkey = tx.inputs.map fun b ↦
      if b = a then { (orig b).clearSignature with
        sigSize := signPublicKeyBytes
        sig := pubkey.toList }
      else (orig b).clearSignature := by
  refine List.ext_getElem? fun k ↦ ?_
  rw [shownInputs_get, plain, List.getElem?_map, List.getElem?_map, Option.map_map]
  cases hk : tx.inputs[k]? with
  | none => rfl
  | some b =>
    have hiff : k = tx.inputs.idxOf a ↔ b = a := by
      have hidx := List.getElem?_eq_getElem (List.idxOf_lt_length_of_mem ha)
      rw [List.getElem_idxOf] at hidx
      constructor
      · intro he
        rw [he, hidx] at hk
        exact (Option.some.inj hk).symm
      · intro he
        rw [he, ← hidx] at hk
        exact (List.getElem?_inj (List.getElem?_eq_some_iff.mp (hk.trans hidx)).1 hnd).mp hk
    simp only [Option.map_some, Function.comp, hiff]

/-- One round of either loop up to the signature: the message is that of the
plain transaction. -/
theorem showKey_run (pubkey : PublicKey) (hnd : tx.inputs.Nodup) (htxid : ∀ a ∈ tx.inputs, (orig a).txid.length = 32)
    (ha : a ∈ tx.inputs) (hblank : Blank tx.inputs orig mem) :
    ∃ mem', tx.showKey a pubkey mem = .ok (signedMessage tx orig a pubkey) mem' ∧
      Blank tx.inputs orig (edit a TransactionInput.clearSignature mem') ∧
      Frame tx.inputs mem mem' := by
  let shown (b : ℕ) : TransactionInput :=
    if b = a then { (orig b).clearSignature with
      sigSize := signPublicKeyBytes
      sig := pubkey.toList }
    else (orig b).clearSignature
  let sized : Memory := edit a (fun inp ↦ { inp with sigSize := signPublicKeyBytes }) mem
  let keyed : Memory := edit a (fun inp ↦ inp.setSignature pubkey.toList true) sized
  have hframe : Frame tx.inputs mem keyed := (frame_edit ha).trans (frame_edit ha)
  have hkeyed : Holds tx.inputs shown keyed := by
    intro b hb
    obtain ⟨obj, hobj, hinp⟩ := hblank b hb
    by_cases he : b = a
    · subst he
      refine ⟨_, edit_self (edit_self hobj), .inl ?_⟩
      have htake : pubkey.toList.take 32 = pubkey.toList := List.take_of_length_le (by simp)
      rcases hinp with he | he <;>
        simp [he, shown, TransactionInput.setSignature, TransactionInput.clearSignature, fill,
          signPublicKeyBytes, htake]
    · refine ⟨obj, (edit_of_ne he).trans ((edit_of_ne he).trans hobj), ?_⟩
      simpa [shown, he] using hinp
  have hfit : ∀ b ∈ tx.inputs, Fitting (shown b) := by
    intro b hb
    have hmem : shown b ∈ shownInputs (plain tx orig) (tx.inputs.idxOf a) pubkey := by
      rw [shownInputs_map hnd ha]
      exact List.mem_map_of_mem hb
    refine fitting_shown _ _ (fun inp hinp ↦ ?_) _ hmem
    obtain ⟨c, hc, rfl⟩ := List.mem_map.mp hinp
    exact htxid c hc
  obtain ⟨mem', hrun, hholds, hrest⟩ := serializeInputs_run hkeyed hfit
  refine ⟨mem', ?_, ?_, hframe.trans hrest⟩
  · have hser : tx.serialize keyed = .ok (signedMessage tx orig a pubkey) mem' := by
      rw [SharedTransaction.serialize, run_bind_of_ok hrun, run_pure, signedMessage, encoding,
        shownInputs_map hnd ha]
      simp [plain, sizeBytes, shown, Function.comp_def]
    exact hser
  · refine holds_edit hholds (fun inp hinp ↦ .inl ?_) fun b _ hne ↦ by simp [shown, hne]
    rcases hinp with rfl | rfl
    · simp [shown, TransactionInput.clearSignature]
    · rw [fill_fields.2.2.2]
      simp [shown, TransactionInput.clearSignature]

end Transaction

section Sign

variable {tx : SharedTransaction} {orig : ℕ → TransactionInput} {pubkey : PublicKey}

def signed (inp : TransactionInput) (sig : Vector UInt8 64) : TransactionInput :=
  { inp.clearSignature with sig := sig.toList, isSigned := true }

theorem forM_edit {f : ℕ → TransactionInput → TransactionInput} (as : List ℕ) (mem : Memory) :
    as.forM (fun a ↦ update a (f a)) mem =
      .ok () (as.foldl (fun mem a ↦ edit a (f a) mem) mem) :=
  forM_ok (P := fun _ _ ↦ True) (fun _ _ _ _ ↦ ⟨rfl, trivial⟩) trivial

theorem edits_outside {f : ℕ → TransactionInput → TransactionInput} (hb : b ∉ as) :
    (as.foldl (fun mem a ↦ edit a (f a) mem) mem)[b]? = mem[b]? := by
  induction as generalizing mem with
  | nil => rfl
  | cons a as ih =>
    rw [List.foldl_cons, ih fun h ↦ hb (List.mem_cons_of_mem a h), edit_of_ne]
    intro he
    exact hb (he ▸ List.mem_cons_self)

theorem edits_inside {f : ℕ → TransactionInput → TransactionInput} {obj : InputObject}
    (hnd : as.Nodup) (ha : a ∈ as) (hobj : mem[a]? = some obj) :
    (as.foldl (fun mem a ↦ edit a (f a) mem) mem)[a]? =
      some { obj with toTransactionInput := f a obj.toTransactionInput } := by
  induction as generalizing mem with
  | nil => exact absurd ha List.not_mem_nil
  | cons b as ih =>
    obtain ⟨hnot, hnd⟩ := List.nodup_cons.mp hnd
    rw [List.foldl_cons]
    rcases List.mem_cons.mp ha with rfl | ha
    · rw [edits_outside hnot, edit_self hobj]
    · refine ih hnd ha ((edit_of_ne ?_).trans hobj)
      intro he
      exact hnot (he ▸ ha)

theorem frame_edits {f : ℕ → TransactionInput → TransactionInput} {bs : List ℕ} (mem : Memory)
    (h : as ⊆ bs) :
    Frame bs mem (as.foldl (fun mem a ↦ edit a (f a) mem) mem) := by
  induction as generalizing mem with
  | nil => exact .refl bs mem
  | cons a as ih =>
    obtain ⟨ha, has⟩ := List.cons_subset.mp h
    exact (frame_edit ha).trans (ih _ has)

theorem sign_run (na : Signer) (pubkey : PublicKey) (privkey : Vector UInt8 64)
    (hnd : tx.inputs.Nodup)
    (htxid : ∀ a ∈ tx.inputs, (orig a).txid.length = 32) (hblank : Blank tx.inputs orig mem) :
    ∃ mem', tx.sign na pubkey privkey mem = .ok () mem' ∧ Frame tx.inputs mem mem' ∧
      ∀ a ∈ tx.inputs, ∃ obj, mem'[a]? = some obj ∧ obj.toTransactionInput =
        signed (orig a) (na.signDetached (signedMessage tx orig a pubkey) privkey) := by
  let sig (a : ℕ) : Vector UInt8 64 := na.signDetached (signedMessage tx orig a pubkey) privkey
  have hcheck : tx.inputs.forM SharedTransaction.checkUnsigned mem = .ok () mem := by
    have hloop := forM_ok (f := SharedTransaction.checkUnsigned) (g := fun _ mem ↦ mem)
      (P := fun as m ↦ Blank as orig m) (fun a as m hm ↦ ?_) hblank
    · rw [hloop]
      congr 1
      exact List.foldl_fixed tx.inputs
    · obtain ⟨obj, hobj, hinp⟩ := hm a List.mem_cons_self
      have hflag : obj.isSigned = false := by
        rcases hinp with he | he
        · rw [he]
          rfl
        · rw [he, fill]
          split_ifs <;> rfl
      refine ⟨?_, fun b hb ↦ hm b (List.mem_cons_of_mem a hb)⟩
      rw [SharedTransaction.checkUnsigned, run_bind_of_ok (deref_run hobj), hflag]
      rfl
  obtain ⟨mid, hsigs, hmid, hframe⟩ := run_mapM (r := sig)
    (g := SharedTransaction.signInput na tx pubkey privkey)
    (I := fun mem' ↦ Blank tx.inputs orig mem' ∧ Frame tx.inputs mem mem')
    (fun a (ha : a ∈ tx.inputs) m hm ↦ by
      obtain ⟨m', hrun, hblank', hframe'⟩ := showKey_run pubkey hnd htxid ha hm.1
      refine ⟨_, ?_, hblank', hm.2.trans (hframe'.trans (frame_edit ha))⟩
      rw [SharedTransaction.signInput, run_bind_of_ok hrun]
      rfl) ⟨hblank, .refl _ _⟩
  let sign (a : ℕ) (inp : TransactionInput) : TransactionInput :=
    inp.setSignature (sig a).toList false
  have hzip : (tx.inputs.zip (tx.inputs.map sig)).forM
      (fun p ↦ update p.1 fun inp ↦ inp.setSignature p.2.toList false) mid =
        tx.inputs.forM (fun a ↦ update a (sign a)) mid := by
    rw [← List.map_prod_left_eq_zip]
    exact congrFun List.forM_map mid
  refine ⟨_, ?_, hframe.trans (frame_edits (f := sign) _ (List.Subset.refl tx.inputs)), ?_⟩
  · rw [SharedTransaction.sign, run_bind_of_ok hcheck, run_bind_of_ok hsigs, hzip, forM_edit]
  · intro a ha
    obtain ⟨obj, hobj, hinp⟩ := hmid a ha
    refine ⟨_, edits_inside hnd ha hobj, ?_⟩
    have htake : (sig a).toList.take 64 = (sig a).toList := List.take_of_length_le (by simp)
    rcases hinp with he | he <;>
      simp [he, sign, signed, sig, TransactionInput.setSignature, TransactionInput.clearSignature,
        fill, signBytes, htake]

end Sign

end FheBlockchain.Core.SigningFacts
