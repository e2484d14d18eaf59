import FheBlockchain.Chain.Exceptions
import FheBlockchain.Core.Amounts
import FheBlockchain.Core.Messages

namespace FheBlockchain.Chain.Decoding

open Core.Transactions Core.Amounts Core.Messages Core.Messages.TransactionInput Exceptions
open Library.BigEndian Library.Results

section Buffers

variable {buffer src : Bytes} {offset : ℕ} {inp : TransactionInput}

theorem isOk_copyTo : (copyTo buffer offset src).isOk = true ↔
    offset + src.length ≤ buffer.length := by
  rw [copyTo]
  split_ifs with h <;> simp [h, Except.isOk, Except.toBool]

theorem length_copyTo {res : Bytes} (h : copyTo buffer offset src = .ok res) :
    res.length = buffer.length := by
  rw [copyTo] at h
  split_ifs at h with hle
  cases h
  simp only [List.length_append, List.length_take, List.length_drop]
  omega

theorem isOk_serialize : inp.serialize.isOk = true ↔
    inp.txid.length ≤ 44 + inp.sigSize.toNat ∧ inp.sig.length ≤ inp.sigSize.toNat := by
  have hvout : (uint64ToVectorBigEndian inp.vout).length = 8 := length_bigEndian _ _
  have hsize : (uint32ToVectorBigEndian inp.sigSize).length = 4 := length_bigEndian _ _
  have hfield : (if inp.sig = [] then zeros inp.sigSize.toNat else inp.sig).length ≤
      inp.sigSize.toNat ↔ inp.sig.length ≤ inp.sigSize.toNat := by
    split_ifs with hsig <;> simp [hsig, zeros]
  rw [TransactionInput.serialize, ← hfield]
  cases h₁ : copyTo (zeros (44 + inp.sigSize.toNat)) 0 inp.txid with
  | error e =>
    have hno := @isOk_copyTo (zeros (44 + inp.sigSize.toNat)) inp.txid 0
    rw [h₁] at hno
    simp only [Except.isOk, Except.toBool, zeros, List.length_replicate, Nat.zero_add,
      Bool.false_eq_true, false_iff] at hno
    simp only [hno, false_and, iff_false]
    exact Bool.false_ne_true
  | ok res₁ =>
    have hroom := isOk_copyTo.mp (isOk_iff.mpr ⟨res₁, h₁⟩)
    have hlen₁ := length_copyTo h₁
    simp only [zeros, List.length_replicate, Nat.zero_add] at hroom hlen₁
    obtain ⟨res₂, h₂⟩ := isOk_iff.mp ((@isOk_copyTo res₁ (uint64ToVectorBigEndian inp.vout) 32).mpr
      (by omega))
    have hlen₂ := length_copyTo h₂
    obtain ⟨res₃, h₃⟩ := isOk_iff.mp ((@isOk_copyTo res₂ (uint32ToVectorBigEndian inp.sigSize) 40).mpr
      (by omega))
    have hlen₃ := length_copyTo h₃
    simp only [bind, Except.bind, h₂, h₃, isOk_copyTo, hlen₃, hlen₂, hlen₁, hroom, true_and]
    omega

end Buffers

variable {na : Sodium} {p : ProtoTransaction} {isCoinbase : Bool} {tx : Transaction}

/-- The reads behind `c_str()`: the field and the number of bytes. -/
def fieldReads (p : ProtoTransaction) (isCoinbase : Bool) : List (Bytes × ℕ) :=
  ((p.inputs.filter fun inp ↦ inp.sig ≠ []).map fun inp ↦
    (inp.sig, (sentSigSize isCoinbase).toNat)) ++
  p.outputs.map fun outp ↦ (outp.publicKey, signPublicKeyBytes.toNat)

theorem isOk_readCStr {s : Bytes} {n : ℕ} : (readCStr s n).isOk = true ↔ n ≤ s.length + 1 := by
  rw [readCStr]
  split_ifs with h <;> simp [h, Except.isOk, Except.toBool]

theorem isOk_inputFromProto {q : ProtoTransactionInput} :
    (TransactionInput.fromProto q isCoinbase).isOk = true ↔
      (q.sig ≠ [] → (sentSigSize isCoinbase).toNat ≤ q.sig.length + 1) := by
  rw [TransactionInput.fromProto, ← isOk_readCStr]
  split_ifs with hsig
  · simp [hsig, Except.isOk, Except.toBool]
  · simp only [hsig, not_false_eq_true, forall_const, ne_eq]
    cases readCStr q.sig (sentSigSize isCoinbase).toNat <;> rfl

theorem isOk_outputFromProto {q : ProtoTransactionOutput} :
    (TransactionOutput.fromProto q).isOk = true ↔
      signPublicKeyBytes.toNat ≤ q.publicKey.length + 1 := by
  rw [TransactionOutput.fromProto, ← isOk_readCStr]
  cases readCStr q.publicKey signPublicKeyBytes.toNat <;> rfl

theorem isOk_fromProto : (Transaction.fromProto p isCoinbase).isOk = true ↔
    ∀ r ∈ fieldReads p isCoinbase, r.2 ≤ r.1.length + 1 := by
  have hparts : (Transaction.fromProto p isCoinbase).isOk = true ↔
      (p.inputs.mapM (TransactionInput.fromProto · isCoinbase)).isOk = true ∧
        (p.outputs.mapM TransactionOutput.fromProto).isOk = true := by
    rw [Transaction.fromProto]
    cases p.inputs.mapM (TransactionInput.fromProto · isCoinbase) with
    | error e => simp [bind, Except.bind, Except.isOk, Except.toBool]
    | ok inputs => cases p.outputs.mapM TransactionOutput.fromProto <;> simp [bind, Except.bind,
        pure, Except.pure, Except.isOk, Except.toBool]
  rw [hparts, isOk_mapM, isOk_mapM]
  simp only [isOk_inputFromProto, isOk_outputFromProto, fieldReads, List.forall_mem_append,
    List.forall_mem_map, List.mem_filter, decide_eq_true_eq, and_imp]

theorem input_decoded {q : ProtoTransactionInput} {inp : TransactionInput}
    (h : TransactionInput.fromProto q isCoinbase = .ok inp) :
    inp.txid = q.txid ∧ (inp.isSigned = true ↔ q.sig ≠ []) ∧
      (q.sig ≠ [] → inp.sigSize = sentSigSize isCoinbase ∧
        inp.sig.length = (sentSigSize isCoinbase).toNat) := by
  rw [TransactionInput.fromProto] at h
  split_ifs at h with hsig
  · cases h
    exact ⟨rfl, by simp [hsig, TransactionInput.unsigned], fun hne ↦ absurd hsig hne⟩
  · obtain ⟨bytes, hread, he⟩ := bind_eq_ok.mp h
    have hlen := length_of_readCStr hread
    dsimp only at hlen
    cases he
    refine ⟨rfl, by simp [hsig, TransactionInput.setSignature], fun _ ↦ ⟨rfl, ?_⟩⟩
    rw [TransactionInput.setSignature, ← hlen, List.take_length]

def Aborts {α : Type} (x : Result α) : Prop := ∃ u, x = .error (.abort u)

theorem aborts_iff {α : Type} {x : Result α} (h : NoThrow x) : Aborts x ↔ ¬ x.isOk = true := by
  cases x with
  | ok a => simp [Aborts, Except.isOk, Except.toBool]
  | error e =>
    cases e with
    | throw e => exact absurd rfl (h e)
    | abort u => simp [Aborts, Except.isOk, Except.toBool]

theorem isOk_txid (hs : AllSigned tx) : (tx.txid na).isOk = true ↔
    ∀ inp ∈ tx.inputs, inp.serialize.isOk = true := by
  rw [← isOk_mapM, Transaction.txid, if_pos hs, Transaction.serialize]
  cases tx.inputs.mapM TransactionInput.serialize <;> rfl

theorem txid_aborts : Aborts (tx.txid na) ↔ AllSigned tx ∧
    ∃ inp ∈ tx.inputs, ¬ inp.serialize.isOk = true := by
  by_cases hs : AllSigned tx
  · rw [aborts_iff (noThrow_txid hs), isOk_txid hs]
    push Not
    exact (and_iff_right hs).symm
  · rw [Transaction.txid, if_neg hs]
    simp [Aborts, hs, invalidArgument]

/-- Decoding reads bytes of its fields only, and computing the TXID of what has
been decoded writes into its buffers only. -/
structure InBounds (na : Sodium) (p : ProtoTransaction) (isCoinbase : Bool) : Prop where
  reads : ∀ r ∈ fieldReads p isCoinbase, r.2 ≤ r.1.length
  writes : ∀ tx, Transaction.fromProto p isCoinbase = .ok tx → ¬ Aborts (tx.txid na)

/-- The lengths that are safe: signatures and keys may be too long, and a TXID may
take up all of its buffer. Without a signature in some input no TXID is computed. -/
structure Roomy (p : ProtoTransaction) (isCoinbase : Bool) : Prop where
  sigs : ∀ inp ∈ p.inputs, inp.sig = [] ∨ (sentSigSize isCoinbase).toNat ≤ inp.sig.length
  keys : ∀ outp ∈ p.outputs, signPublicKeyBytes.toNat ≤ outp.publicKey.length
  txids : (∀ inp ∈ p.inputs, inp.sig ≠ []) →
    ∀ inp ∈ p.inputs, inp.txid.length ≤ 44 + (sentSigSize isCoinbase).toNat

structure WellSized (p : ProtoTransaction) (isCoinbase : Bool) : Prop where
  txids : ∀ inp ∈ p.inputs, inp.txid.length = 32
  sigs : ∀ inp ∈ p.inputs, inp.sig = [] ∨ inp.sig.length = (sentSigSize isCoinbase).toNat
  keys : ∀ outp ∈ p.outputs, outp.publicKey.length = signPublicKeyBytes.toNat

theorem WellSized.roomy (h : WellSized p isCoinbase) : Roomy p isCoinbase := by
  refine ⟨fun inp hinp ↦ (h.sigs inp hinp).imp_right Eq.ge, fun outp houtp ↦ (h.keys outp houtp).ge,
    fun _ inp hinp ↦ ?_⟩
  rw [h.txids inp hinp]
  omega

theorem inBounds_iff : InBounds na p isCoinbase ↔ Roomy p isCoinbase := by
  have hreads : (∀ r ∈ fieldReads p isCoinbase, r.2 ≤ r.1.length) ↔
      (∀ inp ∈ p.inputs, inp.sig = [] ∨ (sentSigSize isCoinbase).toNat ≤ inp.sig.length) ∧
        ∀ outp ∈ p.outputs, signPublicKeyBytes.toNat ≤ outp.publicKey.length := by
    simp only [fieldReads, List.forall_mem_append, List.forall_mem_map, List.mem_filter,
      decide_eq_true_eq, and_imp, ← or_iff_not_imp_left]
  -- what the inputs of a decoded transaction take from the message
  have hdecoded {tx : Transaction} (h : Transaction.fromProto p isCoinbase = .ok tx) :
      Aborts (tx.txid na) ↔ (∀ inp ∈ p.inputs, inp.sig ≠ []) ∧
        ∃ inp ∈ p.inputs, 44 + (sentSigSize isCoinbase).toNat < inp.txid.length := by
    obtain ⟨inputs, hinputs, h⟩ := bind_eq_ok.mp h
    obtain ⟨outputs, -, he⟩ := bind_eq_ok.mp h
    cases he
    have hrel := (forall₂_mapM hinputs).imp fun q inp hq ↦ input_decoded hq
    have hsigned : AllSigned ⟨inputs, outputs⟩ ↔ ∀ q ∈ p.inputs, q.sig ≠ [] := by
      rw [AllSigned, List.all_eq_true]
      constructor
      · intro hall q hq
        obtain ⟨inp, hinp, hr⟩ := exists_of_forall₂ hrel hq
        exact hr.2.1.mp (hall inp hinp)
      · intro hall inp hinp
        obtain ⟨q, hq, hr⟩ := exists_of_forall₂ hrel.flip hinp
        exact hr.2.1.mpr (hall q hq)
    rw [txid_aborts, hsigned]
    refine and_congr_right fun hall ↦ ?_
    have hfits {q : ProtoTransactionInput} {inp : TransactionInput} (hq : q ∈ p.inputs)
        (hr : inp.txid = q.txid ∧ (inp.isSigned = true ↔ q.sig ≠ []) ∧
          (q.sig ≠ [] → inp.sigSize = sentSigSize isCoinbase ∧
            inp.sig.length = (sentSigSize isCoinbase).toNat)) :
        ¬ inp.serialize.isOk = true ↔ 44 + (sentSigSize isCoinbase).toNat < q.txid.length := by
      obtain ⟨hsize, hsig⟩ := hr.2.2 (hall q hq)
      rw [isOk_serialize, hsize, hsig, hr.1]
      omega
    constructor
    · rintro ⟨inp, hinp, hover⟩
      obtain ⟨q, hq, hr⟩ := exists_of_forall₂ hrel.flip hinp
      exact ⟨q, hq, (hfits hq hr).mp hover⟩
    · rintro ⟨q, hq, hlong⟩
      obtain ⟨inp, hinp, hr⟩ := exists_of_forall₂ hrel hq
      exact ⟨inp, hinp, (hfits hq hr).mpr hlong⟩
  constructor
  · intro h
    obtain ⟨hsigs, hkeys⟩ := hreads.mp h.reads
    refine ⟨hsigs, hkeys, fun hall inp hinp ↦ ?_⟩
    obtain ⟨tx, htx⟩ := isOk_iff.mp (isOk_fromProto.mpr fun r hr ↦ (h.reads r hr).trans
      (Nat.le_succ _))
    by_contra hlong
    exact h.writes tx htx ((hdecoded htx).mpr ⟨hall, inp, hinp, Nat.lt_of_not_le hlong⟩)
  · intro h
    refine ⟨hreads.mpr ⟨h.sigs, h.keys⟩, fun tx htx hover ↦ ?_⟩
    obtain ⟨hall, inp, hinp, hlong⟩ := (hdecoded htx).mp hover
    exact absurd (h.txids hall inp hinp) (Nat.not_le_of_lt hlong)

theorem noThrow_readCStr (s : Bytes) (n : ℕ) : NoThrow (readCStr s n) := by
  rw [readCStr]
  split_ifs
  · exact noThrow_ok _
  · exact noThrow_abort _

theorem noThrow_fromProto (p : ProtoTransaction) (isCoinbase : Bool) :
    NoThrow (Transaction.fromProto p isCoinbase) := by
  refine noThrow_bind (noThrow_mapM fun q _ ↦ ?_) fun _ _ ↦
    noThrow_bind (noThrow_mapM fun q _ ↦ ?_) fun _ _ ↦ noThrow_ok _
  · rw [TransactionInput.fromProto]
    split_ifs
    · exact noThrow_ok _
    · exact noThrow_bind (noThrow_readCStr _ _) fun _ _ ↦ noThrow_ok _
  · exact noThrow_bind (noThrow_readCStr _ _) fun _ _ ↦ noThrow_ok _

def Refuses (p : ProtoTransaction) (isCoinbase : Bool) : Prop :=
  ¬ WellSized p isCoinbase → ∃ e, Transaction.fromProto p isCoinbase = .error (.throw e)

/-- Decoding stays in bounds for the roomy lengths, and since it refuses nothing,
it does all that it should for the lengths that a node sends. -/
theorem decoding_iff (na : Sodium) (p : ProtoTransaction) (isCoinbase : Bool) :
    (InBounds na p isCoinbase ↔ Roomy p isCoinbase) ∧
      (InBounds na p isCoinbase ∧ Refuses p isCoinbase ↔ WellSized p isCoinbase) := by
  refine ⟨inBounds_iff, fun h ↦ ?_, fun h ↦ ⟨inBounds_iff.mpr h.roomy, fun hno ↦ absurd h hno⟩⟩
  by_contra hno
  obtain ⟨e, he⟩ := h.2 hno
  exact noThrow_fromProto p isCoinbase e he

/-- A signature of one byte, of which 64 are read. -/
def shortSignature : ProtoTransaction where
  inputs := [{ txid := zeros 32, vout := 0, sig := [0] }]
  outputs := []

theorem decoding_out_of_bounds : ¬ ∀ (na : Sodium) (p : ProtoTransaction) (isCoinbase : Bool),
    InBounds na p isCoinbase ∧ Refuses p isCoinbase := by
  intro h
  exact absurd ((h sampleSodium shortSignature false).1.reads ([0], 64) (by decide)) (by decide)

end FheBlockchain.Chain.Decoding
