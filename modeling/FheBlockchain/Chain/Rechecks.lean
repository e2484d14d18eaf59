import FheBlockchain.Chain.Proofs
import FheBlockchain.Chain.Validation
import FheBlockchain.Computer.Checking
import Mathlib.Data.UInt

namespace FheBlockchain.Chain.Rechecks

open Core.Transactions Core.Blocks Validation
open Computer.Computations Computer.Binding Computer.Messages Computer.Proving Computer.Checking
open Library.Execution Library.Results

variable {fhe : OpenFhe} {B V F : Type} [CommSemiring F]
variable (env : Env) (cfg : Config) (enc : Encryption fhe) (L : Libraries fhe B V F)

def verifyObjects (header : BlockHeader) : ℕ → List (FHEComputer fhe) → Result Bool
  | _, [] => .ok true
  | idx, comp :: comps => do
    if ← bindAndVerify enc L comp (bindingData header idx) then verifyObjects header (idx + 1) comps
    else return false

/-- `validate_header_unsafe` on a header that holds these objects. -/
def validateHeaderObjects (chain : List BlockHeader) (header : BlockHeader)
    (comps : List (FHEComputer fhe)) (height : UInt32) : Result Bool := do
  let diffForHeight ← getDifficultyForHeight env cfg chain height
  if diffForHeight ≠ header.difficulty then return false
  if header.computations = [] then return false
  if totalDepth header.computations < diffForHeight then return false
  verifyObjects enc L header 0 comps

/-- The verdicts on the computations of a header are those on its objects. -/
def Judges (header : BlockHeader) (comps : List (FHEComputer fhe)) : Prop :=
  ∀ (i : ℕ) (comp : FHEComputer fhe) (k : Computation), comps[i]? = some comp →
    header.computations[i]? = some k →
    env.verifyProof (bindingData header i) k = bindAndVerify enc L comp (bindingData header i)

variable {env cfg enc L} {chain : List BlockHeader} {header : BlockHeader} {height : UInt32}
variable {comp comp' : FHEComputer fhe} {comps : List (FHEComputer fhe)}

theorem toComputation_shows {k : Computation} (h : comp.toComputation = .ok k) :
    (∃ cc, comp.computation.getCryptoContext = .ok cc) ∧ k.proof = comp.proof := by
  obtain ⟨body, hbody, he⟩ := bind_eq_ok.mp h
  obtain ⟨cc, hcc, -⟩ := bind_eq_ok.mp hbody
  cases he
  exact ⟨⟨cc, hcc⟩, rfl⟩

theorem bindAndVerify_proofless {cc : fhe.CryptoContext} {data : Bytes}
    (hcc : comp.computation.getCryptoContext = .ok cc) (h : comp.proof = []) :
    bindAndVerify enc L comp data = .error (.throw proofNotFound) := by
  rw [bindAndVerify, Proofs.bindToData_run hcc]
  simp only [bind, Except.bind, getProof, h, if_true]
  rfl

theorem verifyComputations_objects {ks : List Computation} {idx : ℕ}
    (hshown : List.Forall₂ (fun comp k ↦ comp.toComputation = .ok k) comps ks)
    (hverdicts : ∀ (i : ℕ) (comp : FHEComputer fhe) (k : Computation), comps[i]? = some comp →
      ks[i]? = some k → env.verifyProof (bindingData header (idx + i)) k =
        bindAndVerify enc L comp (bindingData header (idx + i))) :
    verifyComputations env header idx ks = verifyObjects enc L header idx comps := by
  induction hshown generalizing idx with
  | nil => rfl
  | @cons comp k comps ks hk _ ih =>
    obtain ⟨⟨cc, hcc⟩, hproof⟩ := toComputation_shows hk
    have hrest := @ih (idx + 1) fun i comp k hcomp hk ↦ by
      rw [Nat.add_assoc, Nat.add_comm 1 i]
      exact hverdicts (i + 1) comp k hcomp hk
    rw [verifyComputations, verifyObjects, Computation.getProof, hproof]
    split_ifs with hnone
    · rw [bindAndVerify_proofless hcc hnone]
      rfl
    · rw [← Nat.add_zero idx, ← hverdicts 0 comp k rfl rfl, Nat.add_zero, ← hrest]
      rfl

theorem validateHeader_objects
    (hshown : comps.mapM FHEComputer.toComputation = .ok header.computations)
    (h : Judges env enc L header comps) :
    validateHeaderUnsafe env cfg chain header height =
      validateHeaderObjects env cfg enc L chain header comps height := by
  have hloop : verifyComputations env header 0 header.computations =
      verifyObjects enc L header 0 comps :=
    verifyComputations_objects (forall₂_mapM hshown) fun i comp k hcomp hk ↦ by
      rw [Nat.zero_add]
      exact h i comp k hcomp hk
  rw [validateHeaderUnsafe, validateHeaderObjects, hloop]

section Uses

open FHEComputer (unbound)

/-- What is done to an object before a header is checked: bindings, by checks and by
rounds of the miner, and the output and proof that such a round leaves. -/
inductive Use (fhe : OpenFhe)
  | bind (data : Bytes)
  | prove (res : fhe.Ciphertext) (proof : Bytes)

def Use.run (enc : Encryption fhe) (comp : FHEComputer fhe) : Use fhe → Result (FHEComputer fhe)
  | .bind data => FHEComputer.bindToData enc comp data
  | .prove res proof => .ok { comp with lastRes := some res, proof := proof }

def bindings (uses : List (Use fhe)) : List Bytes :=
  uses.filterMap fun
    | .bind data => some data
    | .prove _ _ => none

theorem bindAndVerify_unbound {data : Bytes}
    (h : comp.computation.ciphertexts = comp.computation.unboundCiphertexts) :
    bindAndVerify enc L (unbound comp) data = bindAndVerify enc L comp data := by
  have hcc : (unbound comp).computation.getCryptoContext = comp.computation.getCryptoContext := by
    rw [FHEComputation.getCryptoContext, FHEComputation.getCryptoContext, unbound, h]
  have hbind : FHEComputer.bindToData enc (unbound comp) data =
      FHEComputer.bindToData enc comp data := by
    rw [FHEComputer.bindToData, FHEComputer.bindToData, bindInputsToData, bindInputsToData, hcc]
    cases comp.computation.getCryptoContext with
    | error e => rfl
    | ok cc =>
      have harchive : (if comp.computation.isBound then comp.computation.unboundCiphertextsArchive
          else comp.computation.ciphertexts) = comp.computation.ciphertexts := h.symm
      have hbound : bound enc cc (unbound comp).computation data =
          bound enc cc comp.computation data := by
        simp only [bound, unbound, Bool.false_eq_true, if_false, ← h, harchive]
      simp only [bind, Except.bind, pure, Except.pure, hbound]
      rfl
  rw [bindAndVerify, bindAndVerify, hbind]

theorem verifyObjects_unbound (idx : ℕ)
    (h : ∀ comp ∈ comps, comp.computation.ciphertexts = comp.computation.unboundCiphertexts) :
    verifyObjects enc L header idx (comps.map unbound) = verifyObjects enc L header idx comps := by
  induction comps generalizing idx with
  | nil => rfl
  | cons comp comps ih =>
    rw [List.map_cons, verifyObjects, verifyObjects,
      bindAndVerify_unbound (h comp List.mem_cons_self),
      ih (idx + 1) fun c hc ↦ h c (List.mem_cons_of_mem _ hc)]

end Uses

section Group

open FHEComputer (unbound unboundCiphertexts_bound)

variable [AddGroup fhe.Ciphertext]

/-- Only the bindings among the uses change the ciphertexts, and none changes what
they were. -/
theorem run_uses (uses : List (Use fhe)) (hadd : ∀ cc a b, enc.evalAdd cc a b = a + b)
    (hkeep : KeepsContext enc) {cc : fhe.CryptoContext}
    (hcc : comp.computation.getCryptoContext = .ok cc) :
    ∃ comp', uses.foldlM (Use.run enc) comp = .ok comp' ∧
      comp'.computation.unboundCiphertexts = comp.computation.unboundCiphertexts ∧
      comp'.computation.ciphertexts = comp.computation.ciphertexts.mapIdx fun i c ↦
        addedZeros enc cc comp.computation.publicKey (bindings uses) i + c := by
  induction uses generalizing comp with
  | nil => exact ⟨comp, rfl, rfl, by simp [bindings, addedZeros, List.mapIdx_eq_zipIdx_map]⟩
  | cons u uses ih =>
    cases u with
    | bind data =>
      obtain ⟨comp', hrun, hold, hcts⟩ :=
        @ih { comp with computation := bound enc cc comp.computation data }
          ((getCryptoContext_bound hkeep cc _ data).trans hcc)
      refine ⟨comp', ?_, hold.trans (unboundCiphertexts_bound cc _ data), ?_⟩
      · rw [List.foldlM_cons, Use.run, Proofs.bindToData_run hcc]
        exact hrun
      · rw [hcts, bound, List.mapIdx_mapIdx]
        have hbindings : bindings (.bind data :: uses) = data :: bindings uses := rfl
        simp only [hbindings, addedZeros_cons, hadd, Function.comp_def, add_assoc]
    | prove res proof => exact @ih { comp with lastRes := some res, proof := proof } hcc

variable (env cfg enc L chain header height) in
/-- Bindings start from the original ciphertexts, whatever the objects were used for
before, and the check of a header goes as with objects that were never bound. -/
structure Repeatable (objs : List (FHEComputer fhe × List (Use fhe))) : Prop where
  ciphertexts : ∀ o ∈ objs, ∀ last, BoundToLast enc o.1.computation (bindings o.2) last
  verdict : ∃ comps,
    List.Forall₂ (fun o comp ↦ o.2.foldlM (Use.run enc) o.1 = .ok comp) objs comps ∧
    validateHeaderObjects env cfg enc L chain header comps height =
      validateHeaderObjects env cfg enc L chain header (comps.map unbound) height

end Group

section Sample

open Accepted HeaderEncoding Proofs Replay

instance : AddGroup byteFhe.Ciphertext := inferInstanceAs (AddGroup UInt8)

theorem sampleLibraries_obliging : Obliging sampleLibraries where
  ps := {
    relinearize := fun _ ↦ returnsIff_pure _
    rescale := fun _ ↦ returnsIff_pure _
    evalAdd := fun _ _ ↦ (returnsIff_modify _).then fun _ ↦ returnsIff_pure _
    evalSub := fun _ _ ↦ (returnsIff_modify _).then fun _ ↦ returnsIff_pure _
    evalMultNoRelin := fun _ _ ↦ (returnsIff_modify _).then fun _ ↦ returnsIff_pure _ }
  publicInput _ := returnsIff_modify _
  constrainPublicOutput _ := fun _ ↦ iff_of_true ⟨_, _, rfl⟩ trivial
  finalizeOutputConstraints _ _ := returnsIff_modify _
  verifier _ _ _ := rfl

def summing : Encryption byteFhe where
  encryptZeroDeterministic _ _ seed := seed.foldl (· + ·) 0
  evalAdd _ (a b : UInt8) := a + b

def minedMachine : Machine byteFhe SampleBoard :=
  let bound := FHEComputer.bindToData summing sampleTask (bindingData firstBlock.header 0)
  match generateProof sampleLibraries (fun _ ↦ false)
      { sampleMachine with computer := bound.toOption.getD sampleTask } with
  | .ok _ m => m
  | .error _ m => m

def provenTask : FHEComputer byteFhe :=
  { sampleTask with lastRes := minedMachine.computer.lastRes, proof := minedMachine.computer.proof }

def checkOn (comps : List (FHEComputer byteFhe)) : Result Bool :=
  validateHeaderObjects sampleEnv sampleConfig summing sampleLibraries [sampleGenesis.header]
    firstBlock.header comps 1

end Sample

end FheBlockchain.Chain.Rechecks
