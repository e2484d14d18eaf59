import FheBlockchain.Core.Serialization
import FheBlockchain.Library.Framing

namespace FheBlockchain.Core.Signatures

open Transactions Serialization Library.BigEndian Library.Framing

section Input

variable {inp : TransactionInput}

def sigField (inp : TransactionInput) : Bytes :=
  if inp.sig = [] then zeros inp.sigSize.toNat else inp.sig

structure Fitting (inp : TransactionInput) : Prop where
  txid : inp.txid.length = 32
  sig : (sigField inp).length = inp.sigSize.toNat

def frame (inp : TransactionInput) : Bytes :=
  inp.key ++ (bigEndian 4 (sigField inp).length ++ sigField inp)

theorem copyTo_zeros (pre : Bytes) {src : Bytes} {k n : ℕ} (h : src.length = k) :
    copyTo (pre ++ zeros (k + n)) pre.length src = .ok ((pre ++ src) ++ zeros n) := by
  rw [copyTo, if_pos (by simp [zeros, h])]
  congr 1
  rw [List.take_left, List.drop_append, h, List.drop_eq_nil_of_le (by omega)]
  simp [zeros]

theorem serialize_fitting (h : Fitting inp) : inp.serialize = .ok (frame inp) := by
  have hvout : (uint64ToVectorBigEndian inp.vout).length = 8 := by simp
  have hsize : (uint32ToVectorBigEndian inp.sigSize).length = 4 := by
    simp [uint32ToVectorBigEndian]
  have hkey : inp.key.length = 40 := by
    rw [TransactionInput.key, txidVoutPairToKey, List.length_append, h.txid, hvout]
  have h₁ : copyTo (zeros (44 + inp.sigSize.toNat)) 0 inp.txid =
      .ok (inp.txid ++ zeros (12 + inp.sigSize.toNat)) := by
    have := copyTo_zeros [] (n := 12 + inp.sigSize.toNat) h.txid
    rwa [← Nat.add_assoc] at this
  have h₂ : copyTo (inp.txid ++ zeros (12 + inp.sigSize.toNat)) 32
      (uint64ToVectorBigEndian inp.vout) = .ok (inp.key ++ zeros (4 + inp.sigSize.toNat)) := by
    have := copyTo_zeros inp.txid (n := 4 + inp.sigSize.toNat) hvout
    rwa [← Nat.add_assoc, h.txid] at this
  have h₃ : copyTo (inp.key ++ zeros (4 + inp.sigSize.toNat)) 40
      (uint32ToVectorBigEndian inp.sigSize) =
      .ok (inp.key ++ uint32ToVectorBigEndian inp.sigSize ++ zeros inp.sigSize.toNat) := by
    have := copyTo_zeros inp.key (n := inp.sigSize.toNat) hsize
    rwa [hkey] at this
  have h₄ : copyTo (inp.key ++ uint32ToVectorBigEndian inp.sigSize ++ zeros inp.sigSize.toNat) 44
      (sigField inp) =
      .ok (inp.key ++ uint32ToVectorBigEndian inp.sigSize ++ sigField inp) := by
    have := copyTo_zeros (inp.key ++ uint32ToVectorBigEndian inp.sigSize) (n := 0) h.sig
    rwa [List.length_append, hkey, hsize, Nat.add_zero, show zeros 0 = [] from rfl,
      List.append_nil] at this
  simp only [TransactionInput.serialize, h₁, h₂, h₃, bind, Except.bind]
  rw [← sigField, h₄, frame, h.sig, List.append_assoc]
  rfl

theorem frame_selfDelimiting :
    SelfDelimiting Fitting frame fun inp ↦ (inp.key, sigField inp) := by
  refine SelfDelimiting.append (selfDelimiting_of_length (n := 40) (fun inp h ↦ ?_)
    fun _ _ _ _ he ↦ he) (selfDelimiting_sized sigField fun inp h ↦ ?_)
  · simp [TransactionInput.key, txidVoutPairToKey, h.txid]
  · rw [h.sig]
    exact inp.sigSize.toNat_lt

theorem key_inj {inp₁ inp₂ : TransactionInput} (h₁ : Fitting inp₁) (h₂ : Fitting inp₂)
    (h : inp₁.key = inp₂.key) : inp₁.txid = inp₂.txid ∧ inp₁.vout = inp₂.vout := by
  obtain ⟨htxid, hvout⟩ := List.append_inj h (h₁.txid.trans h₂.txid.symm)
  exact ⟨htxid, UInt64.toNat_inj.mp (bigEndian_inj inp₁.vout.toNat_lt inp₂.vout.toNat_lt hvout)⟩

end Input

theorem output_selfDelimiting :
    SelfDelimiting (fun _ : TransactionOutput ↦ True) TransactionOutput.serialize id := by
  refine selfDelimiting_of_length (n := 40) (fun outp _ ↦ ?_) fun a b _ _ he ↦ ?_
  · simp [TransactionOutput.serialize]
  · obtain ⟨hamount, hkey⟩ := List.append_inj he (by simp)
    have ha := UInt64.toNat_inj.mp (bigEndian_inj a.amount.toNat_lt b.amount.toNat_lt hamount)
    have hk : a.publicKey = b.publicKey := Vector.toList_inj.mp hkey
    cases a
    cases b
    exact congrArg₂ TransactionOutput.mk ha hk

section Transaction

structure Encodable (tx : Transaction) : Prop where
  inputs : tx.inputs.length < 256 ^ 8 ∧ ∀ inp ∈ tx.inputs, Fitting inp
  outputs : tx.outputs.length < 256 ^ 8

def encoding (tx : Transaction) : Bytes :=
  (bigEndian 8 tx.inputs.length ++ (tx.inputs.map frame).flatten) ++
    (bigEndian 8 tx.outputs.length ++ (tx.outputs.map TransactionOutput.serialize).flatten)

theorem mapM_ok {α β : Type} {f : α → Result β} {g : α → β} {as : List α}
    (h : ∀ a ∈ as, f a = .ok (g a)) : as.mapM f = .ok (as.map g) := by
  induction as with
  | nil => rfl
  | cons a as ih =>
    rw [List.mapM_cons, h a (by simp), ih fun b hb ↦ h b (by simp [hb])]
    rfl

theorem serialize_of_fitting {tx : Transaction} (h : ∀ inp ∈ tx.inputs, Fitting inp) :
    tx.serialize = .ok (encoding tx) := by
  rw [Transaction.serialize, mapM_ok fun inp hinp ↦ serialize_fitting (h inp hinp)]
  simp [bind, Except.bind, pure, Except.pure, encoding, sizeBytes]

theorem serialize_encodable {tx : Transaction} (h : Encodable tx) :
    tx.serialize = .ok (encoding tx) :=
  serialize_of_fitting h.inputs.2

theorem encoding_selfDelimiting : SelfDelimiting Encodable encoding fun tx ↦
    (tx.inputs.map fun inp ↦ (inp.key, sigField inp), tx.outputs.map id) := by
  have hin := (frame_selfDelimiting.list 8).comp Transaction.inputs
  have hout := (output_selfDelimiting.list 8).comp Transaction.outputs
  exact SelfDelimiting.append (fun a b r s ha hb ↦ hin a b r s ha.inputs hb.inputs)
    fun a b r s ha hb ↦ hout a b r s ⟨ha.outputs, by simp⟩ ⟨hb.outputs, by simp⟩

end Transaction

/-- A transaction with 32-byte TXIDs in its inputs. The sizes of its lists are
64-bit numbers. -/
structure Referring (tx : Transaction) : Prop where
  txids : ∀ inp ∈ tx.inputs, inp.txid.length = 32
  inputs : tx.inputs.length < 2 ^ 64
  outputs : tx.outputs.length < 2 ^ 64

def FullySigned (tx : Transaction) : Prop :=
  ∀ inp ∈ tx.inputs, inp.isSigned = true ∧ inp.sig.length = inp.sigSize.toNat

section Signed

variable {tx tx₁ tx₂ : Transaction} {i j : ℕ} {pubkey pk₁ pk₂ : PublicKey}

theorem sigField_signed {inp : TransactionInput} (h : inp.sig.length = inp.sigSize.toNat) :
    sigField inp = inp.sig := by
  rw [sigField]
  split_ifs with hnil
  · rw [hnil, List.length_nil] at h
    rw [hnil, ← h]
    rfl
  · rfl

theorem encodable_signed (h : Referring tx) (hs : FullySigned tx) : Encodable tx := by
  refine ⟨⟨h.inputs, fun inp hinp ↦ ⟨h.txids inp hinp, ?_⟩⟩, h.outputs⟩
  rw [sigField_signed (hs inp hinp).2]
  exact (hs inp hinp).2

theorem serialize_inj (h₁ : Referring tx₁) (h₂ : Referring tx₂) (hs₁ : FullySigned tx₁)
    (hs₂ : FullySigned tx₂) (hser : tx₁.serialize = tx₂.serialize) : tx₁ = tx₂ := by
  have he₁ := serialize_encodable (encodable_signed h₁ hs₁)
  have he₂ := serialize_encodable (encodable_signed h₂ hs₂)
  have he := Except.ok.inj (he₁.symm.trans (hser.trans he₂))
  obtain ⟨hin, hout⟩ := Prod.mk.inj (encoding_selfDelimiting.inj (encodable_signed h₁ hs₁)
    (encodable_signed h₂ hs₂) he)
  have hsize (inp : TransactionInput) (h : inp.sig.length = inp.sigSize.toNat) :
      inp.sigSize = UInt32.ofNat inp.sig.length := by
    rw [h, UInt32.ofNat_toNat]
  have hinputs : tx₁.inputs = tx₂.inputs := by
    refine List.ext_getElem (by simpa using congrArg List.length hin) fun k hk₁ hk₂ ↦ ?_
    have hm₁ := List.getElem_mem hk₁
    have hm₂ := List.getElem_mem hk₂
    have hk := congrArg (·[k]?) hin
    simp only [List.getElem?_map, List.getElem?_eq_getElem hk₁, List.getElem?_eq_getElem hk₂,
      Option.map_some, Option.some.injEq, Prod.mk.injEq] at hk
    obtain ⟨htxid, hvout⟩ := key_inj ((encodable_signed h₁ hs₁).inputs.2 _ hm₁)
      ((encodable_signed h₂ hs₂).inputs.2 _ hm₂) hk.1
    have hsig := hk.2
    rw [sigField_signed (hs₁ _ hm₁).2, sigField_signed (hs₂ _ hm₂).2] at hsig
    have hsz₁ := hsize _ (hs₁ _ hm₁).2
    have hsz₂ := hsize _ (hs₂ _ hm₂).2
    rw [hsig, ← hsz₂] at hsz₁
    have hflag := (hs₁ _ hm₁).1.trans (hs₂ _ hm₂).1.symm
    revert htxid hvout hsig hsz₁ hflag
    cases tx₁.inputs[k]
    cases tx₂.inputs[k]
    simp_all
  rw [List.map_id, List.map_id] at hout
  cases tx₁
  cases tx₂
  exact congrArg₂ Transaction.mk hinputs hout

def shownInputs (tx : Transaction) (idx : ℕ) (pubkey : PublicKey) : List TransactionInput :=
  (tx.inputs.map TransactionInput.clearSignature).modify idx fun inp ↦
    { inp with sigSize := signPublicKeyBytes }.setSignature pubkey.toList true

theorem shownInputs_get (k : ℕ) : (shownInputs tx i pubkey)[k]? =
    (tx.inputs[k]?).map fun inp ↦
      if k = i then { inp.clearSignature with
        sigSize := signPublicKeyBytes
        sig := pubkey.toList }
      else inp.clearSignature := by
  rw [shownInputs, List.getElem?_modify, List.getElem?_map]
  cases tx.inputs[k]? with
  | none => rfl
  | some inp =>
    simp only [Option.map_some, Option.map_eq_map, eq_comm (a := i)]
    split_ifs
    · have htake : pubkey.toList.take 32 = pubkey.toList := List.take_of_length_le (by simp)
      simp [TransactionInput.setSignature, TransactionInput.clearSignature, signPublicKeyBytes,
        htake]
    · rfl

/-- What the serialization shows of the `k`-th input: its key, and the public key
or zeros, which are longer. -/
theorem shownInputs_view (k : ℕ) :
    ((shownInputs tx i pubkey).map fun inp ↦ (inp.key, sigField inp))[k]? =
      (tx.inputs[k]?).map fun inp ↦ (inp.key, if k = i then pubkey.toList else zeros 64) := by
  rw [List.getElem?_map, shownInputs_get]
  cases tx.inputs[k]? with
  | none => rfl
  | some inp =>
    simp only [Option.map_some, Option.some.injEq]
    split_ifs
    · simp [TransactionInput.key, TransactionInput.clearSignature, sigField]
    · rfl

theorem fitting_shown (i : ℕ) (pubkey : PublicKey)
    (h : ∀ inp ∈ tx.inputs, inp.txid.length = 32) :
    ∀ inp ∈ shownInputs tx i pubkey, Fitting inp := by
  intro inp hinp
  obtain ⟨k, hk⟩ := List.mem_iff_getElem?.mp hinp
  rw [shownInputs_get, Option.map_eq_some_iff] at hk
  obtain ⟨old, hold, rfl⟩ := hk
  have htxid := h old (List.mem_of_getElem? hold)
  split_ifs
  · exact ⟨htxid, by simp [sigField, signPublicKeyBytes]⟩
  · exact ⟨htxid, by simp [sigField, TransactionInput.clearSignature, zeros]⟩

theorem encodable_shown (i : ℕ) (pubkey : PublicKey) (h : Referring tx) :
    Encodable { tx with inputs := shownInputs tx i pubkey } :=
  ⟨⟨by simpa [shownInputs] using h.inputs, fitting_shown i pubkey h.txids⟩, h.outputs⟩

theorem signedBytes_inj (h₁ : Referring tx₁) (h₂ : Referring tx₂) (hi : i < tx₁.inputs.length)
    (hmsg : tx₁.signedBytes i pk₁ = tx₂.signedBytes j pk₂) :
    i = j ∧ tx₁.inputs.map (fun inp ↦ (inp.txid, inp.vout)) =
      tx₂.inputs.map (fun inp ↦ (inp.txid, inp.vout)) ∧ pk₁ = pk₂ ∧ tx₁.outputs = tx₂.outputs := by
  have he₁ := serialize_encodable (encodable_shown i pk₁ h₁)
  have he₂ := serialize_encodable (encodable_shown j pk₂ h₂)
  have he := Except.ok.inj (he₁.symm.trans (hmsg.trans he₂))
  obtain ⟨hin, hout⟩ := Prod.mk.inj (encoding_selfDelimiting.inj (encodable_shown i pk₁ h₁)
    (encodable_shown j pk₂ h₂) he)
  have hview (k : ℕ) := congrArg (·[k]?) hin
  simp only [shownInputs_view] at hview
  have hlen : tx₁.inputs.length = tx₂.inputs.length := by
    simpa [shownInputs] using congrArg List.length hin
  have hat : (if i = j then pk₂.toList else zeros 64) = pk₁.toList := by
    have hk := hview i
    rw [List.getElem?_eq_getElem hi, List.getElem?_eq_getElem (hlen ▸ hi), Option.map_some,
      Option.map_some, Option.some.injEq, Prod.mk.injEq, if_pos rfl] at hk
    exact hk.2.symm
  obtain rfl : i = j := by
    by_contra hne
    rw [if_neg hne] at hat
    simpa [zeros] using congrArg List.length hat
  rw [if_pos rfl] at hat
  refine ⟨rfl, List.ext_getElem? fun k ↦ ?_, (Vector.toList_inj.mp hat).symm, by simpa using hout⟩
  have hk := hview k
  rw [List.getElem?_map, List.getElem?_map]
  cases ha : tx₁.inputs[k]? with
  | none =>
    have hb : tx₂.inputs[k]? = none := by
      rw [List.getElem?_eq_none_iff] at ha ⊢
      omega
    rw [hb]
  | some a =>
    cases hb : tx₂.inputs[k]? with
    | none =>
      rw [List.getElem?_eq_none_iff] at hb
      obtain ⟨hk', -⟩ := List.getElem?_eq_some_iff.mp ha
      omega
    | some b =>
      rw [ha, hb, Option.map_some, Option.map_some, Option.some.injEq, Prod.mk.injEq] at hk
      have htxid₁ := h₁.txids a (List.mem_of_getElem? ha)
      have htxid₂ := h₂.txids b (List.mem_of_getElem? hb)
      obtain ⟨htxid, hvout⟩ := List.append_inj hk.1 (htxid₁.trans htxid₂.symm)
      have hvout' := UInt64.toNat_inj.mp (bigEndian_inj a.vout.toNat_lt b.vout.toNat_lt hvout)
      rw [Option.map_some, Option.map_some, htxid, hvout']

/-- A signature covers its position, all references, its public key and all
outputs; the serialization of a signed transaction shows everything, so that
TXIDs collide only where the hash does. -/
theorem signatures_commit (na : Sodium) (h₁ : Referring tx₁) (h₂ : Referring tx₂) :
    (∀ i j pk₁ pk₂, i < tx₁.inputs.length → j < tx₂.inputs.length →
      tx₁.signedBytes i pk₁ = tx₂.signedBytes j pk₂ →
      i = j ∧ tx₁.inputs.map (fun inp ↦ (inp.txid, inp.vout)) =
        tx₂.inputs.map (fun inp ↦ (inp.txid, inp.vout)) ∧
        pk₁ = pk₂ ∧ tx₁.outputs = tx₂.outputs) ∧
    (FullySigned tx₁ → FullySigned tx₂ → tx₁.serialize = tx₂.serialize → tx₁ = tx₂) ∧
    (FullySigned tx₁ → FullySigned tx₂ → tx₁.txid na = tx₂.txid na → tx₁ = tx₂ ∨
      ∃ ser₁ ser₂, tx₁.serialize = .ok ser₁ ∧ tx₂.serialize = .ok ser₂ ∧ ser₁ ≠ ser₂ ∧
        na.hash ser₁ = na.hash ser₂) := by
  refine ⟨fun i j pk₁ pk₂ hi _ ↦ signedBytes_inj h₁ h₂ hi, serialize_inj h₁ h₂,
    fun hs₁ hs₂ hid ↦ ?_⟩
  have he₁ := serialize_encodable (encodable_signed h₁ hs₁)
  have he₂ := serialize_encodable (encodable_signed h₂ hs₂)
  have hall {tx : Transaction} (hs : FullySigned tx) :
      tx.inputs.all TransactionInput.isSigned = true :=
    List.all_eq_true.mpr fun inp hinp ↦ (hs inp hinp).1
  rw [Transaction.txid, if_pos (hall hs₁), he₁, Transaction.txid, if_pos (hall hs₂), he₂] at hid
  by_cases hne : encoding tx₁ = encoding tx₂
  · exact .inl (serialize_inj h₁ h₂ hs₁ hs₂ (by rw [he₁, he₂, hne]))
  · exact .inr ⟨_, _, he₁, he₂, hne, Except.ok.inj hid⟩

def merging : Transaction where
  inputs := [.unsigned (zeros 32) 0, .unsigned (zeros 32) 1]
  outputs := [⟨2, Vector.replicate 32 0⟩]

theorem signatures_commit_merging :
    merging.signedBytes 0 (Vector.replicate 32 0) ≠ merging.signedBytes 1 (Vector.replicate 32 0) := by
  intro h
  have href : Referring merging := ⟨by decide, by decide, by decide⟩
  have hsame := (signatures_commit ⟨fun _ ↦ Vector.replicate 32 0, fun _ _ _ ↦ true⟩ href href).1
    0 1 _ _ (by decide) (by decide) h
  exact absurd hsame.1 (by decide)

end Signed

end FheBlockchain.Core.Signatures
