import FheBlockchain.Chain.ValidationFacts
import FheBlockchain.Computer.Computations

namespace FheBlockchain.Chain.HeaderEncoding

open Core.Transactions Core.Blocks Validation ValidationFacts Computer.Computations
open Library.BigEndian Library.Framing Library.Results

structure SizedComputation (comp : Computation) : Prop where
  serialized : ∀ includeOutput, (comp.serialize includeOutput).length < 256 ^ 8
  output : comp.output.length < 256 ^ 8
  proof : comp.proof.length < 256 ^ 8

structure SizedHeader (header : BlockHeader) : Prop where
  prevHash : header.prevHash.length = 32
  merkleRoot : header.merkleRoot.length = 32
  computations : header.computations.length < 256 ^ 8 ∧
    ∀ comp ∈ header.computations, SizedComputation comp

def front (header : BlockHeader) : Bytes :=
  header.prevHash ++ (header.merkleRoot ++
    (bigEndian 8 header.timestamp.toUInt64.toNat ++ bigEndian 4 header.difficulty.toNat))

def listed (includeOutput : Bool) (header : BlockHeader) : Bytes :=
  bigEndian 8 header.computations.length ++
    (header.computations.map fun comp ↦
      bigEndian 8 (comp.serialize includeOutput).length ++ comp.serialize includeOutput).flatten

def proofs (header : BlockHeader) : Bytes :=
  (header.computations.map fun comp ↦ bigEndian 8 comp.proof.length ++ comp.proof).flatten

theorem serialize_false (header : BlockHeader) :
    header.serialize false = front header ++ listed false header := by
  simp [BlockHeader.serialize, BlockHeader.serializeRest, front, listed, sizeBytes,
    uint64ToVectorBigEndian, uint32ToVectorBigEndian]

theorem serialize_true (header : BlockHeader) :
    header.serialize true = (front header ++ listed true header) ++ proofs header := by
  simp [BlockHeader.serialize, BlockHeader.serializeRest, front, listed, proofs, sizeBytes,
    uint64ToVectorBigEndian, uint32ToVectorBigEndian]

theorem front_selfDelimiting : SelfDelimiting SizedHeader front fun header ↦
    (header.prevHash, header.merkleRoot, header.timestamp.toUInt64.toNat,
      header.difficulty.toNat) := by
  have hprev : SelfDelimiting SizedHeader BlockHeader.prevHash BlockHeader.prevHash :=
    selfDelimiting_of_length (fun _ h ↦ h.prevHash) fun _ _ _ _ he ↦ he
  have hroot : SelfDelimiting SizedHeader BlockHeader.merkleRoot BlockHeader.merkleRoot :=
    selfDelimiting_of_length (fun _ h ↦ h.merkleRoot) fun _ _ _ _ he ↦ he
  have htime : SelfDelimiting SizedHeader _ _ :=
    selfDelimiting_bigEndian (k := 8) fun header _ ↦ header.timestamp.toUInt64.toNat_lt
  have hdiff : SelfDelimiting SizedHeader _ _ :=
    selfDelimiting_bigEndian (k := 4) fun header _ ↦ header.difficulty.toNat_lt
  exact hprev.append (hroot.append (htime.append hdiff))

theorem listed_selfDelimiting (includeOutput : Bool) :
    SelfDelimiting SizedHeader (listed includeOutput)
      fun header ↦ header.computations.map (Computation.serialize · includeOutput) := by
  have hcomp : SelfDelimiting SizedComputation _ _ :=
    selfDelimiting_sized (Computation.serialize · includeOutput) (k := 8)
      fun _ h ↦ h.serialized includeOutput
  exact fun a b r s ha hb ↦
    (hcomp.list 8) a.computations b.computations r s ha.computations hb.computations

theorem proofs_selfDelimiting {a b : BlockHeader} {r s : Bytes} (ha : SizedHeader a)
    (hb : SizedHeader b) (hlen : a.computations.length = b.computations.length)
    (he : proofs a ++ r = proofs b ++ s) :
    a.computations.map Computation.proof = b.computations.map Computation.proof ∧ r = s := by
  have hproof : SelfDelimiting SizedComputation _ _ :=
    selfDelimiting_sized Computation.proof (k := 8) fun _ h ↦ h.proof
  exact hproof.flatten hlen ha.computations.2 hb.computations.2 he

def SameFront (a b : BlockHeader) : Prop :=
  a.prevHash = b.prevHash ∧ a.merkleRoot = b.merkleRoot ∧ a.timestamp = b.timestamp ∧
    a.difficulty = b.difficulty

theorem sameFront_of_view {a b : BlockHeader}
    (h : (a.prevHash, a.merkleRoot, a.timestamp.toUInt64.toNat, a.difficulty.toNat) =
      (b.prevHash, b.merkleRoot, b.timestamp.toUInt64.toNat, b.difficulty.toNat)) :
    SameFront a b := by
  simp only [Prod.mk.injEq] at h
  obtain ⟨hprev, hroot, htime, hdiff⟩ := h
  exact ⟨hprev, hroot, Content.timestamp_inj htime, UInt32.toNat_inj.mp hdiff⟩

structure Carries {fhe : OpenFhe} (header : BlockHeader) (comps : List (FHEComputer fhe)) : Prop where
  computations : comps.mapM FHEComputer.toComputation = .ok header.computations
  complete : ∀ comp ∈ comps, comp.lastRes.isSome ∧ comp.proof ≠ []
  sized : ∀ comp ∈ comps, ∀ content, comp.computation.content = .ok content → content.Sized

section Claim

variable {fhe : OpenFhe} {h₁ h₂ : BlockHeader} {comps₁ comps₂ : List (FHEComputer fhe)}

theorem toComputation_ok {comp : FHEComputer fhe} {k : Computation}
    (h : comp.toComputation = .ok k) : ∃ content, comp.computation.content = .ok content ∧
      k.body = content.encode ∧ k.output = comp.output.getD [] ∧ k.proof = comp.proof := by
  rw [FHEComputer.toComputation, bind_eq_ok] at h
  obtain ⟨body, hbody, he⟩ := h
  obtain rfl := Except.ok.inj he
  rw [serialize_eq] at hbody
  cases hc : comp.computation.content with
  | error e =>
    rw [hc] at hbody
    cases hbody
  | ok content =>
    rw [hc] at hbody
    exact ⟨content, rfl, (Except.ok.inj hbody).symm, rfl, rfl⟩

theorem content_inj {a b : FHEComputer fhe} {k l : Computation} (ha : a ∈ comps₁) (hb : b ∈ comps₂)
    (hc₁ : Carries h₁ comps₁) (hc₂ : Carries h₂ comps₂) (hk : a.toComputation = .ok k)
    (hl : b.toComputation = .ok l) (hbody : k.body = l.body) :
    a.computation.content = b.computation.content := by
  obtain ⟨ca, hca, hka, -⟩ := toComputation_ok hk
  obtain ⟨cb, hcb, hlb, -⟩ := toComputation_ok hl
  rw [hka, hlb] at hbody
  rw [hca, hcb, Content.encode_inj (hc₁.sized a ha ca hca) (hc₂.sized b hb cb hcb) hbody]

theorem serialize_output_inj {k l : Computation} (hk : SizedComputation k)
    (hl : SizedComputation l) (h : k.serialize true = l.serialize true) :
    k.output = l.output ∧ k.body = l.body :=
  selfDelimiting_sized Computation.output (k := 8)
    (fun _ (h : SizedComputation _) ↦ h.output) k l _ _ hk hl (by
      simpa [Computation.serialize, sizeBytes] using h)

/-- The header encoding is injective, and so is the binding data. -/
theorem header_encoding_injective (hs₁ : SizedHeader h₁) (hs₂ : SizedHeader h₂)
    (hc₁ : Carries h₁ comps₁) (hc₂ : Carries h₂ comps₂) :
    (h₁.serialize true = h₂.serialize true → SameFront h₁ h₂ ∧
      List.Forall₂ (fun a b ↦ a.computation.content = b.computation.content ∧
        a.output = b.output ∧ a.proof = b.proof) comps₁ comps₂) ∧
    ∀ i j, i < 2 ^ 64 → j < 2 ^ 64 → bindingData h₁ i = bindingData h₂ j →
      i = j ∧ SameFront h₁ h₂ ∧
        List.Forall₂ (fun a b ↦ a.computation.content = b.computation.content) comps₁ comps₂ := by
  refine ⟨fun he ↦ ?_, fun i j hi hj he ↦ ?_⟩
  · rw [serialize_true, serialize_true] at he
    obtain ⟨hview, hproofs⟩ := (front_selfDelimiting.append (listed_selfDelimiting true))
      h₁ h₂ _ _ hs₁ hs₂ he
    obtain ⟨hfront, hlist⟩ := Prod.mk.inj hview
    have hlen : h₁.computations.length = h₂.computations.length := by
      simpa using congrArg List.length hlist
    obtain ⟨hproof, -⟩ := proofs_selfDelimiting (r := []) (s := []) hs₁ hs₂ hlen (by rw [hproofs])
    have hall := forall₂_mem (forall₂_and (forall₂_of_map hlist) (forall₂_of_map hproof))
    have hcomps := forall₂_mem (forall₂_of_mapM hc₁.computations hc₂.computations hall)
    refine ⟨sameFront_of_view hfront, hcomps.imp ?_⟩
    rintro a b ⟨ha, hb, k, l, hk, hl, hkm, hlm, hser, hp⟩
    obtain ⟨hout, hbody⟩ := serialize_output_inj (hs₁.computations.2 k hkm)
      (hs₂.computations.2 l hlm) hser
    obtain ⟨-, -, -, hka, hpa⟩ := toComputation_ok hk
    obtain ⟨-, -, -, hlb, hpb⟩ := toComputation_ok hl
    refine ⟨content_inj ha hb hc₁ hc₂ hk hl hbody, ?_, by rw [← hpa, ← hpb, hp]⟩
    obtain ⟨ra, hra⟩ := Option.isSome_iff_exists.mp (hc₁.complete a ha).1
    obtain ⟨rb, hrb⟩ := Option.isSome_iff_exists.mp (hc₂.complete b hb).1
    rw [hka, hlb] at hout
    simpa [FHEComputer.output, hra, hrb] using hout
  · rw [bindingData, bindingData, serialize_false, serialize_false] at he
    obtain ⟨hview, hidx⟩ := (front_selfDelimiting.append (listed_selfDelimiting false))
      h₁ h₂ _ _ hs₁ hs₂ he
    obtain ⟨hfront, hlist⟩ := Prod.mk.inj hview
    have hij : i = j := by
      have := bigEndian_inj (UInt64.ofNat i).toNat_lt (UInt64.ofNat j).toNat_lt hidx
      rwa [UInt64.toNat_ofNat_of_lt' hi, UInt64.toNat_ofNat_of_lt' hj] at this
    have hall := forall₂_of_map hlist
    have hcomps := forall₂_mem (forall₂_of_mapM hc₁.computations hc₂.computations hall)
    refine ⟨hij, sameFront_of_view hfront, hcomps.imp ?_⟩
    rintro a b ⟨ha, hb, k, l, hk, hl, hser⟩
    exact content_inj ha hb hc₁ hc₂ hk hl hser

def byteFhe : OpenFhe where
  PublicKey := Unit
  Ciphertext := UInt8
  CryptoContext := Unit
  cryptoContext _ := ()
  serializePublicKey _ := [1, 2]
  serializeCiphertext c := [c]
  serializeEvalMultKey _ := []

def byteComputer (c : UInt8) : FHEComputer byteFhe where
  computation := {
    expression := [48]
    publicKey := ()
    ciphertexts := [c]
    timestamp := 3
    unboundCiphertextsArchive := []
    isBound := false }
  lastRes := some c
  proof := [1]
  depth := 1

def byteHeader (c : UInt8) : BlockHeader where
  prevBlockHeader := none
  ownPrevHash := []
  merkleRoot := zeros 32
  timestamp := 5
  difficulty := 1
  computations := ([byteComputer c].mapM FHEComputer.toComputation).toOption.getD []

theorem header_encoding_bytes : (byteHeader 1).serialize true ≠ (byteHeader 2).serialize true := by
  have hsized (c : UInt8) (hc : c = 1 ∨ c = 2) : SizedHeader (byteHeader c) := by
    have hcomp : ∀ comp ∈ (byteHeader c).computations, (∀ b, (comp.serialize b).length < 256 ^ 8) ∧
        comp.output.length < 256 ^ 8 ∧ comp.proof.length < 256 ^ 8 := by
      rcases hc with rfl | rfl <;> decide +kernel
    exact ⟨rfl, rfl, by rcases hc with rfl | rfl <;> decide +kernel,
      fun comp h ↦ ⟨(hcomp comp h).1, (hcomp comp h).2.1, (hcomp comp h).2.2⟩⟩
  have hcarries (c : UInt8) : Carries (byteHeader c) [byteComputer c] := by
    refine ⟨rfl, fun comp hcomp ↦ ?_, fun comp hcomp content hcontent ↦ ?_⟩
    · rw [List.mem_singleton.mp hcomp]
      exact ⟨rfl, by simp [byteComputer]⟩
    rw [List.mem_singleton.mp hcomp] at hcontent
    obtain rfl := Except.ok.inj hcontent
    have hone : (1 : ℕ) < 256 ^ 8 := by decide
    refine ⟨hone, by simp [byteFhe], by simp [byteFhe], hone, fun x hx ↦ ?_⟩
    rw [List.mem_singleton.mp hx]
    exact hone
  intro he
  obtain ⟨-, hcomps⟩ := (header_encoding_injective (hsized 1 (.inl rfl)) (hsized 2 (.inr rfl))
    (hcarries 1) (hcarries 2)).1 he
  cases hcomps with
  | cons h _ =>
    have hout : (some [1] : Option Bytes) = some [2] := h.2.1
    exact absurd hout (by decide)

end Claim

end FheBlockchain.Chain.HeaderEncoding
