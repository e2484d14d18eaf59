import FheBlockchain.Chain.Delivery
import FheBlockchain.Computer.Proving
import Mathlib.Data.ZMod.Basic

namespace FheBlockchain.Chain.Proofs

open Core.Transactions Computer.Ast Computer.Computations Computer.Binding Computer.Expressions
open Computer.Messages Computer.Padding Computer.Proving
open Library.Execution Library.Results

variable {fhe : OpenFhe} {B V F : Type} [CommSemiring F]

section Delivery

open FHEComputer

variable {L : Libraries fhe B V F} {des : Deserialize fhe} {enc : Encryption fhe}
variable {comp first : FHEComputer fhe} {data : Bytes} {m m' : Machine fhe B} {stopFlag : ℕ → Bool}

theorem bindToData_ok (h : bindToData enc comp data = .ok first) : ∃ cc,
    comp.computation.getCryptoContext = .ok cc ∧
      first = { comp with computation := bound enc cc comp.computation data } := by
  obtain ⟨computation, hbind, he⟩ := bind_eq_ok.mp h
  obtain ⟨cc, hcc, hbound⟩ := bind_eq_ok.mp hbind
  cases he
  cases hbound
  exact ⟨cc, hcc, rfl⟩

theorem bindToData_run {cc : fhe.CryptoContext} (h : comp.computation.getCryptoContext = .ok cc) :
    bindToData enc comp data =
      .ok { comp with computation := bound enc cc comp.computation data } := by
  rw [bindToData, bindInputsToData, h]
  rfl

theorem toComputation_ok {cc : fhe.CryptoContext}
    (h : comp.computation.getCryptoContext = .ok cc) : ∃ k, comp.toComputation = .ok k := by
  rw [FHEComputer.toComputation, FHEComputation.serialize, h]
  exact ⟨_, rfl⟩

theorem isSatisfied_padded {board : B} (hrange : (L.constraintSystem board).InRange)
    (h : (L.constraintSystem board).IsSatisfied (L.primaryInput board) (L.auxiliaryInput board)) :
    (paddedSystem L board).IsSatisfied (paddedPrimary L board)
      (padAuxiliaryInputToMatchCs (paddedSystem L board) (L.auxiliaryInput board)) := by
  obtain ⟨hprim, haux, hcons⟩ := h
  have hsystem : paddedSystem L board =
      padConstraintSystemForAurora L.libiop (L.constraintSystem board) := by
    rw [paddedSystem, libsnarkToLibiop_eq]
  have hsize : (L.constraintSystem board).auxiliaryInputSize ≤
      (padConstraintSystemForAurora L.libiop (L.constraintSystem board)).auxiliaryInputSize :=
    auxiliaryInputSize_pad _
  rw [← hsystem, ← haux] at hsize
  refine ⟨?_, ?_, ?_⟩
  · rw [paddedPrimary, padPrimaryInputToMatchCs, List.length_append, List.length_replicate, hsystem,
      R1csConstraintSystem.numInputs, primaryInputSize_pad, hprim]
    omega
  · rw [padAuxiliaryInputToMatchCs, List.length_append, List.length_replicate]
    omega
  · rw [paddedPrimary, hsystem]
    refine (constraints_pad_hold L.libiop hrange hprim).mpr ?_
    rwa [padAuxiliaryInputToMatchCs, ← haux, List.take_left]

/-- A proof that a node has made for a computation is checked by every node that it
is sent to against the constraints that it was made from. -/
theorem checked_as_proved (hr : Reads des) (hkeep : KeepsContext enc)
    (hbound : comp.computation.isBound = false)
    (hdepth : treeDepth comp.computation.expression = .ok comp.depth)
    (hbind : bindToData enc comp data = .ok first) (hm : m.computer = first)
    (hprove : generateProof L stopFlag m = .ok () m') :
    ∃ msg received again, toProto m'.computer = .ok msg ∧ fromProto des msg = .ok received ∧
      bindToData enc received data = .ok again ∧ again.proof = generateArgument L m'.board ∧
      ∀ n : Machine fhe B, n.computer = again → ∃ n',
        generateConstraints L (fun _ ↦ false) false n = .ok () n' ∧ n'.board = m'.board := by
  obtain ⟨cc, hcc, rfl⟩ := bindToData_ok hbind
  obtain ⟨u, hu, hboard, hcomp⟩ := generateProof_run hprove
  obtain ⟨res, hres, hagain⟩ := generateConstraints_again hu
  rw [hres, hm] at hcomp
  have hunbound : comp.computation.unboundCiphertexts = comp.computation.ciphertexts := by
    rw [FHEComputation.unboundCiphertexts, hbound, if_neg Bool.false_ne_true]
  have hsound : Sound m'.computer := by
    refine ⟨by rw [hcomp]; exact hdepth, ?_⟩
    rw [hcomp, unboundCiphertexts_bound, contexts_bound hkeep, hunbound]
  have hcc' : m'.computer.computation.getCryptoContext = .ok cc := by
    rw [hcomp, getCryptoContext_bound hkeep]
    exact hcc
  obtain ⟨k, hk⟩ := toComputation_ok hcc'
  obtain ⟨msg, hto, hfrom⟩ := fromProto_toProto hr hsound hk
  have hbindable : (unbound m'.computer).computation.getCryptoContext = .ok cc :=
    (getCryptoContext_unbound hsound).trans hcc'
  refine ⟨msg, _, _, hto, hfrom, bindToData_run hbindable, ?_, fun n hn ↦ ?_⟩
  · rw [hboard]
    exact congrArg FHEComputer.proof hcomp
  · have hcts : n.computer.computation.ciphertexts = m.computer.computation.ciphertexts := by
      rw [hn, hm]
      simp only [bound, unbound, hcomp, FHEComputation.unboundCiphertexts, hbound, if_true,
        Bool.false_eq_true, if_false]
    have hexpr : n.computer.computation.expression = m.computer.computation.expression := by
      rw [hn, hm]
      simp only [bound, unbound, hcomp]
    have hlast : n.computer.lastRes = some res := by
      rw [hn]
      simp only [unbound, hcomp]
    obtain ⟨n', hn', hsame, -⟩ := hagain n hcts hexpr hlast
    exact ⟨n', hn', hsame.trans hboard.symm⟩

/-- What passes as a proof at one node passes at all of them, if the constraints were
satisfied when the proof was made, which is printed but not asked for. -/
theorem proof_accepted (hr : Reads des) (hkeep : KeepsContext enc)
    (hcomplete : ∀ cs x w, cs.IsSatisfied x w → L.verifier cs x (L.prover cs x w) = .ok true)
    (hbound : comp.computation.isBound = false)
    (hdepth : treeDepth comp.computation.expression = .ok comp.depth)
    (hbind : bindToData enc comp data = .ok first) (hm : m.computer = first)
    (hprove : generateProof L stopFlag m = .ok () m')
    (hrange : (L.constraintSystem m'.board).InRange)
    (hsat : (L.constraintSystem m'.board).IsSatisfied (L.primaryInput m'.board)
      (L.auxiliaryInput m'.board)) :
    ∃ msg received again, toProto m'.computer = .ok msg ∧ fromProto des msg = .ok received ∧
      bindToData enc received data = .ok again ∧ ∀ n : Machine fhe B, n.computer = again →
        ∃ n', verifyProof L (fun _ ↦ false) again.proof n = .ok true n' := by
  obtain ⟨msg, received, again, hto, hfrom, hagain, hproof, hchecked⟩ :=
    checked_as_proved hr hkeep hbound hdepth hbind hm hprove
  refine ⟨msg, received, again, hto, hfrom, hagain, fun n hn ↦ ?_⟩
  obtain ⟨n', hn', hboard⟩ := hchecked n hn
  refine ⟨n', ?_⟩
  rw [verifyProof_run hn', hboard, hproof, verifyArgument, generateArgument,
    hcomplete _ _ _ (isSatisfied_padded hrange hsat)]
  rfl

end Delivery

section Sample

open HeaderEncoding Delivery Library.R1cs

structure SampleBoard where
  primary : List (ZMod 7)
  auxiliary : List (ZMod 7)
  constraints : List (Constraint (ZMod 7))

namespace SampleBoard

def constant (a : ZMod 7) : LinearCombination (ZMod 7) := [⟨0, a⟩]

def declare (a : ZMod 7) (board : SampleBoard) : SampleBoard :=
  { board with primary := board.primary ++ [a] }

def multiply (a b : ZMod 7) (board : SampleBoard) : SampleBoard :=
  { board with
    auxiliary := board.auxiliary ++ [a * b]
    constraints := board.constraints ++ [⟨constant a, constant b,
      [⟨board.primary.length + board.auxiliary.length + 1, 1⟩]⟩] }

def equate (a : ZMod 7) (var : ℕ) (board : SampleBoard) : SampleBoard :=
  { board with constraints := board.constraints ++ [⟨constant a, constant 1, [⟨var, 1⟩]⟩] }

def system (board : SampleBoard) : R1csConstraintSystem (ZMod 7) where
  primaryInputSize := board.primary.length
  auxiliaryInputSize := board.auxiliary.length
  constraints := board.constraints

end SampleBoard

def residue (c : UInt8) : ZMod 7 := c.toNat

instance (cs : R1csConstraintSystem (ZMod 7)) (x w : List (ZMod 7)) : Decidable (cs.IsSatisfied x w) :=
  inferInstanceAs (Decidable (_ ∧ _ ∧ ∀ c ∈ cs.constraints, _ = _))

instance (cs : R1csConstraintSystem (ZMod 7)) : Decidable cs.InRange :=
  inferInstanceAs (Decidable (∀ c ∈ cs.constraints, ∀ term ∈ c.terms, _ ≤ _))

/-- A proof consists of the private values. -/
def sampleLibraries : Libraries byteFhe SampleBoard ℕ (ZMod 7) where
  context _ := {
    relinearize := .ok
    rescale := .ok
    evalAdd := fun (a b : UInt8) ↦ .ok (a + b)
    evalSub := fun (a b : UInt8) ↦ .ok (a - b)
    evalMultNoRelin := fun (a b : UInt8) ↦ .ok (a * b) }
  create _ := ⟨[], [], []⟩
  publicInput c := modify (SampleBoard.declare (residue c))
  constrainPublicOutput c := do
    modify (SampleBoard.declare (residue c))
    return (← get).primary.length
  ps := {
    relinearize := fun c ↦ return c
    rescale := fun c ↦ return c
    evalAdd := fun (a b : UInt8) ↦ do
      modify (SampleBoard.multiply (residue (a + b)) 1)
      return a + b
    evalSub := fun (a b : UInt8) ↦ do
      modify (SampleBoard.multiply (residue (a - b)) 1)
      return a - b
    evalMultNoRelin := fun (a b : UInt8) ↦ do
      modify (SampleBoard.multiply (residue a) (residue b))
      return a * b }
  finalizeOutputConstraints c var := modify (SampleBoard.equate (residue c) var)
  constraintSystem := SampleBoard.system
  primaryInput := SampleBoard.primary
  auxiliaryInput := SampleBoard.auxiliary
  libiop := roundingUp
  prover _ _ w := w.map fun a ↦ UInt8.ofNat a.val
  verifier cs x proof := .ok (decide (cs.IsSatisfied x (proof.map residue)))

theorem sampleLibraries_complete (cs : R1csConstraintSystem (ZMod 7)) (x w : List (ZMod 7))
    (h : cs.IsSatisfied x w) :
    sampleLibraries.verifier cs x (sampleLibraries.prover cs x w) = .ok true := by
  have hvalue : ∀ a : ZMod 7, residue (UInt8.ofNat a.val) = a := by decide
  have hread : (sampleLibraries.prover cs x w).map residue = w := by
    simp [sampleLibraries, Function.comp_def, hvalue]
  refine congrArg Except.ok (decide_eq_true ?_)
  rwa [hread]

/-- 0 * 1 + 0 -/
def sampleTask : FHEComputer byteFhe where
  computation := {
    expression := [48, 42, 49, 43, 48]
    publicKey := ()
    ciphertexts := [(3 : UInt8), (5 : UInt8)]
    timestamp := 3
    unboundCiphertextsArchive := []
    isBound := false }
  lastRes := none
  proof := []
  depth := 1

def sampleMachine : Machine byteFhe SampleBoard where
  computer := (FHEComputer.bindToData byteEnc sampleTask [9]).toOption.getD sampleTask
  checks := 0
  seen := []
  board := ⟨[], [], []⟩

theorem proof_accepted_sample : ∃ m' msg received again,
    generateProof sampleLibraries (fun _ ↦ false) sampleMachine = .ok () m' ∧
    FHEComputer.toProto m'.computer = .ok msg ∧ FHEComputer.fromProto byteDes msg = .ok received ∧
      FHEComputer.bindToData byteEnc received [9] = .ok again ∧
      ∀ n : Machine byteFhe SampleBoard, n.computer = again →
        ∃ n', verifyProof sampleLibraries (fun _ ↦ false) again.proof n = .ok true n' := by
  have hbind : (FHEComputer.bindToData byteEnc sampleTask [9]).isOk = true := by decide +kernel
  have hprove : returns (generateProof sampleLibraries fun _ ↦ false) sampleMachine
      (fun _ m' ↦ (sampleLibraries.constraintSystem m'.board).InRange ∧
        (sampleLibraries.constraintSystem m'.board).IsSatisfied (sampleLibraries.primaryInput m'.board)
          (sampleLibraries.auxiliaryInput m'.board)) = true := by decide +kernel
  obtain ⟨first, hfirst⟩ := isOk_iff.mp hbind
  obtain ⟨⟨⟩, m', hm', hsat⟩ := returns_iff.mp hprove
  rw [decide_eq_true_eq] at hsat
  have hm : sampleMachine.computer = first := by
    rw [sampleMachine, hfirst]
    rfl
  obtain ⟨msg, received, again, h⟩ := proof_accepted byteDes_reads (fun _ _ _ ↦ rfl)
    sampleLibraries_complete rfl (by decide +kernel) hfirst hm hm' hsat.1 hsat.2
  exact ⟨m', msg, received, again, hm', h⟩

end Sample

end FheBlockchain.Chain.Proofs
