import FheBlockchain.Library.R1cs
import Mathlib.Data.Nat.Log
import Mathlib.Data.ZMod.Defs

namespace FheBlockchain.Computer.Padding

open Library.R1cs

variable {F : Type}

/-- A constraint system of libsnark and of libiop, which differ in the names of
the fields. Sizes and indices are those of vectors in memory. -/
structure R1csConstraintSystem (F : Type) where
  primaryInputSize : ℕ
  auxiliaryInputSize : ℕ
  constraints : List (Constraint F)

/-- What the padding takes from libff and libiop: `log2`, which rounds up, and
the linear combination that is built from the integer 0. -/
structure Libiop (F : Type) [CommSemiring F] where
  log2 : ℕ → ℕ
  log2_eq : ∀ n, log2 n = Nat.clog 2 n
  zeroCombination : LinearCombination F
  evaluate_zero : ∀ z : ℕ → F, zeroCombination.evaluate z = 0

namespace R1csConstraintSystem

def numInputs (cs : R1csConstraintSystem F) : ℕ := cs.primaryInputSize

def numVariables (cs : R1csConstraintSystem F) : ℕ := cs.primaryInputSize + cs.auxiliaryInputSize

def numConstraints (cs : R1csConstraintSystem F) : ℕ := cs.constraints.length

def addConstraint (cs : R1csConstraintSystem F) (c : Constraint F) : R1csConstraintSystem F :=
  { cs with constraints := cs.constraints ++ [c] }

/-- Index 0 stands for the constant 1, the primary input comes next and the
auxiliary input last. -/
def IsSatisfied [CommSemiring F] (cs : R1csConstraintSystem F) (primary auxiliary : List F) :
    Prop :=
  primary.length = cs.primaryInputSize ∧ auxiliary.length = cs.auxiliaryInputSize ∧
    ∀ c ∈ cs.constraints, c.Holds (assignment (primary ++ auxiliary))

def InRange (cs : R1csConstraintSystem F) : Prop :=
  ∀ c ∈ cs.constraints, ∀ term ∈ c.terms, term.index ≤ cs.numVariables

end R1csConstraintSystem

def libsnarkToLibiopLinearTerm (lsLt : LinearTerm F) : LinearTerm F where
  index := lsLt.index
  coeff := lsLt.coeff

def libsnarkToLibiopLinearCombination (lsLc : LinearCombination F) : LinearCombination F :=
  lsLc.map libsnarkToLibiopLinearTerm

def libsnarkToLibiopR1csConstraint (lsCons : Constraint F) : Constraint F where
  a := libsnarkToLibiopLinearCombination lsCons.a
  b := libsnarkToLibiopLinearCombination lsCons.b
  c := libsnarkToLibiopLinearCombination lsCons.c

def libsnarkToLibiopR1csConstraintSystem (lsConsSystem : R1csConstraintSystem F) :
    R1csConstraintSystem F :=
  lsConsSystem.constraints.foldl
    (fun cs c ↦ cs.addConstraint (libsnarkToLibiopR1csConstraint c))
    { primaryInputSize := lsConsSystem.primaryInputSize
      auxiliaryInputSize := lsConsSystem.auxiliaryInputSize
      constraints := [] }

variable [CommSemiring F] (lib : Libiop F)

def padConstraintsToNextPowerOfTwo (cs : R1csConstraintSystem F) : R1csConstraintSystem F :=
  let nextPowerOfTwo := 2 ^ lib.log2 cs.numConstraints
  let padAmount := nextPowerOfTwo - cs.numConstraints
  let newC := ⟨lib.zeroCombination, lib.zeroCombination, lib.zeroCombination⟩
  (List.range padAmount).foldl (fun cs _ ↦ cs.addConstraint newC) cs

def moveTerms (oldPrimaryInputSize inputPadAmount : ℕ) (lc : LinearCombination F) :
    LinearCombination F :=
  lc.map fun lt ↦
    if oldPrimaryInputSize < lt.index then { lt with index := lt.index + inputPadAmount } else lt

def padConstraintSystemForAurora (cs : R1csConstraintSystem F) : R1csConstraintSystem F :=
  let oldPrimaryInputSize := cs.numInputs
  let inputNextPowerOfTwo := 2 ^ lib.log2 (oldPrimaryInputSize + 1)
  let inputPadAmount := inputNextPowerOfTwo - (oldPrimaryInputSize + 1)
  let cs := if 0 < inputPadAmount then
    { cs with
      primaryInputSize := cs.primaryInputSize + inputPadAmount
      constraints := cs.constraints.map fun c ↦ {
        a := moveTerms oldPrimaryInputSize inputPadAmount c.a
        b := moveTerms oldPrimaryInputSize inputPadAmount c.b
        c := moveTerms oldPrimaryInputSize inputPadAmount c.c } }
    else cs
  let cs := padConstraintsToNextPowerOfTwo lib cs
  let varNextPowerOfTwo := 2 ^ lib.log2 (cs.numVariables + 1)
  let varPadAmount := varNextPowerOfTwo - (cs.numVariables + 1)
  { cs with auxiliaryInputSize := cs.auxiliaryInputSize + varPadAmount }

def padPrimaryInputToMatchCs (cs : R1csConstraintSystem F) (prim : List F) : List F :=
  prim ++ List.replicate (cs.numInputs - prim.length) 0

def padAuxiliaryInputToMatchCs (cs : R1csConstraintSystem F) (aux : List F) : List F :=
  aux ++ List.replicate (cs.auxiliaryInputSize - aux.length) 0

section Facts

variable {lib} {cs : R1csConstraintSystem F}

omit [CommSemiring F] in
theorem libsnarkToLibiop_eq (cs : R1csConstraintSystem F) :
    libsnarkToLibiopR1csConstraintSystem cs = cs := by
  have hterms (lc : LinearCombination F) : libsnarkToLibiopLinearCombination lc = lc :=
    List.map_id lc
  have hcons (c : Constraint F) : libsnarkToLibiopR1csConstraint c = c := by
    simp only [libsnarkToLibiopR1csConstraint, hterms]
  have hloop (cons : List (Constraint F)) (acc : R1csConstraintSystem F) :
      cons.foldl (fun cs c ↦ cs.addConstraint (libsnarkToLibiopR1csConstraint c)) acc =
        { acc with constraints := acc.constraints ++ cons } := by
    induction cons generalizing acc with
    | nil => simp
    | cons c cons ih =>
      rw [List.foldl_cons, ih, hcons]
      simp [R1csConstraintSystem.addConstraint]
  rw [libsnarkToLibiopR1csConstraintSystem, hloop]
  rfl

theorem padConstraintsToNextPowerOfTwo_eq (cs : R1csConstraintSystem F) :
    padConstraintsToNextPowerOfTwo lib cs = { cs with
      constraints := cs.constraints ++
        List.replicate (2 ^ lib.log2 cs.numConstraints - cs.numConstraints)
          ⟨lib.zeroCombination, lib.zeroCombination, lib.zeroCombination⟩ } := by
  have hloop (n : ℕ) (newC : Constraint F) (acc : R1csConstraintSystem F) :
      (List.range n).foldl (fun cs _ ↦ cs.addConstraint newC) acc =
        { acc with constraints := acc.constraints ++ List.replicate n newC } := by
    induction n with
    | zero => simp
    | succ n ih =>
      rw [List.range_succ, List.foldl_append, ih, List.replicate_succ']
      simp [R1csConstraintSystem.addConstraint]
  exact hloop _ _ _

omit [CommSemiring F] in
theorem moveTerms_eq (n pad : ℕ) (lc : LinearCombination F) :
    moveTerms n pad lc = lc.rename (shift n pad) := by
  refine List.map_congr_left fun lt _ ↦ ?_
  simp only [shift]
  split_ifs <;> rfl

def inputPad (lib : Libiop F) (cs : R1csConstraintSystem F) : ℕ :=
  2 ^ lib.log2 (cs.numInputs + 1) - (cs.numInputs + 1)

theorem constraints_pad (lib : Libiop F) (cs : R1csConstraintSystem F) : ∃ n,
    (padConstraintSystemForAurora lib cs).constraints =
      cs.constraints.map (Constraint.rename (shift cs.numInputs (inputPad lib cs))) ++
        List.replicate n ⟨lib.zeroCombination, lib.zeroCombination, lib.zeroCombination⟩ := by
  simp only [padConstraintSystemForAurora, padConstraintsToNextPowerOfTwo_eq, inputPad]
  split_ifs with hpad
  · simp only [moveTerms_eq]
    exact ⟨_, rfl⟩
  · rw [Nat.eq_zero_of_not_pos hpad, shift_zero]
    have hid : Constraint.rename (R := F) id = id := funext Constraint.rename_id
    rw [hid, List.map_id]
    exact ⟨_, rfl⟩

theorem primaryInputSize_pad (cs : R1csConstraintSystem F) :
    (padConstraintSystemForAurora lib cs).primaryInputSize =
      cs.primaryInputSize + inputPad lib cs := by
  simp only [padConstraintSystemForAurora, padConstraintsToNextPowerOfTwo_eq, inputPad]
  split_ifs with hpad
  · rfl
  · rw [Nat.eq_zero_of_not_pos hpad]
    rfl

theorem auxiliaryInputSize_pad (cs : R1csConstraintSystem F) :
    cs.auxiliaryInputSize ≤ (padConstraintSystemForAurora lib cs).auxiliaryInputSize := by
  simp only [padConstraintSystemForAurora, padConstraintsToNextPowerOfTwo_eq]
  split_ifs <;> exact Nat.le_add_right _ _

variable {x w : List F}

/-- On an assignment whose primary input is extended by zeros, the padded
constraints say what the old ones say. -/
theorem constraints_pad_hold (lib : Libiop F) (hrange : cs.InRange) (hx : x.length = cs.primaryInputSize) :
    (∀ c ∈ (padConstraintSystemForAurora lib cs).constraints, c.Holds (assignment
      (padPrimaryInputToMatchCs (padConstraintSystemForAurora lib cs) x ++ w))) ↔
      ∀ c ∈ cs.constraints, c.Holds (assignment (x ++ w.take cs.auxiliaryInputSize)) := by
  have hpadded : padPrimaryInputToMatchCs (padConstraintSystemForAurora lib cs) x =
      x ++ List.replicate (inputPad lib cs) 0 := by
    rw [padPrimaryInputToMatchCs, R1csConstraintSystem.numInputs, primaryInputSize_pad, hx,
      Nat.add_sub_cancel_left]
  have hold : ∀ c ∈ cs.constraints,
      ((c.rename (shift cs.numInputs (inputPad lib cs))).Holds (assignment
        (x ++ List.replicate (inputPad lib cs) 0 ++ w)) ↔
      c.Holds (assignment (x ++ w.take cs.auxiliaryInputSize))) := by
    intro c hc
    rw [Constraint.holds_rename]
    refine Constraint.holds_congr fun term hterm ↦ ?_
    have hle := hrange c hc term hterm
    rw [R1csConstraintSystem.numVariables, ← hx] at hle
    have hmove := assignment_shift (List.replicate (inputPad lib cs) (0 : F)) (w := w) hle
    rwa [List.length_replicate, hx] at hmove
  have hnew : (⟨lib.zeroCombination, lib.zeroCombination, lib.zeroCombination⟩ :
      Constraint F).Holds (assignment (x ++ List.replicate (inputPad lib cs) 0 ++ w)) := by
    rw [Constraint.Holds, lib.evaluate_zero, mul_zero]
  obtain ⟨n, hcons⟩ := constraints_pad lib cs
  rw [hpadded, hcons]
  refine ⟨fun h c hc ↦ (hold c hc).mp (h _ ?_), fun h c hc ↦ ?_⟩
  · exact List.mem_append_left _ (List.mem_map_of_mem hc)
  · rcases List.mem_append.mp hc with hc | hc
    · obtain ⟨c', hc', rfl⟩ := List.mem_map.mp hc
      exact (hold c' hc').mpr (h c' hc')
    · rw [List.eq_of_mem_replicate hc]
      exact hnew

theorem le_two_pow_log2 (lib : Libiop F) (n : ℕ) : n ≤ 2 ^ lib.log2 n := by
  rw [lib.log2_eq]
  exact Nat.le_pow_clog Nat.one_lt_two n

theorem numConstraints_pad (cs : R1csConstraintSystem F) :
    (padConstraintSystemForAurora lib cs).numConstraints = 2 ^ lib.log2 cs.numConstraints := by
  have hle := le_two_pow_log2 lib cs.numConstraints
  simp only [padConstraintSystemForAurora, padConstraintsToNextPowerOfTwo_eq]
  split_ifs <;> simp [R1csConstraintSystem.numConstraints] at hle ⊢ <;> omega

theorem numInputs_pad (cs : R1csConstraintSystem F) :
    (padConstraintSystemForAurora lib cs).numInputs + 1 = 2 ^ lib.log2 (cs.numInputs + 1) := by
  have hle := le_two_pow_log2 lib (cs.numInputs + 1)
  rw [R1csConstraintSystem.numInputs, primaryInputSize_pad, inputPad]
  rw [R1csConstraintSystem.numInputs] at hle ⊢
  omega

theorem numVariables_pad (cs : R1csConstraintSystem F) :
    (padConstraintSystemForAurora lib cs).numVariables + 1 =
      2 ^ lib.log2 (cs.numVariables + inputPad lib cs + 1) := by
  have hle := le_two_pow_log2 lib (cs.numVariables + inputPad lib cs + 1)
  have hcount : (padConstraintsToNextPowerOfTwo lib { cs with
      primaryInputSize := cs.primaryInputSize + inputPad lib cs }).numVariables =
        cs.numVariables + inputPad lib cs := by
    simp only [padConstraintsToNextPowerOfTwo_eq, R1csConstraintSystem.numVariables]
    omega
  have haux : (padConstraintSystemForAurora lib cs).auxiliaryInputSize = cs.auxiliaryInputSize +
      (2 ^ lib.log2 (cs.numVariables + inputPad lib cs + 1) -
        (cs.numVariables + inputPad lib cs + 1)) := by
    rw [← hcount]
    simp only [padConstraintSystemForAurora, padConstraintsToNextPowerOfTwo_eq, inputPad]
    split_ifs with hpad
    · rfl
    · rw [Nat.eq_zero_of_not_pos hpad]
      rfl
  rw [R1csConstraintSystem.numVariables, primaryInputSize_pad, haux]
  simp only [R1csConstraintSystem.numVariables] at hle ⊢
  omega

end Facts

/-- Padding keeps the statement: the padded system is satisfied by the extended
inputs when the original one is by the inputs, and from every auxiliary input of
the padded system its first values serve for the original one. -/
theorem padding_keeps_statement (cs : R1csConstraintSystem F) (hrange : cs.InRange) (x : List F)
    (hx : x.length = cs.primaryInputSize) :
    let padded := padConstraintSystemForAurora lib (libsnarkToLibiopR1csConstraintSystem cs)
    (∀ w : List F, w.length = cs.auxiliaryInputSize →
      (cs.IsSatisfied x w ↔ padded.IsSatisfied (padPrimaryInputToMatchCs padded x)
        (padAuxiliaryInputToMatchCs padded w))) ∧
    ∀ w : List F, w.length = padded.auxiliaryInputSize →
      padded.IsSatisfied (padPrimaryInputToMatchCs padded x) w →
        cs.IsSatisfied x (w.take cs.auxiliaryInputSize) := by
  intro padded
  have hpadded : padded = padConstraintSystemForAurora lib cs := by
    rw [← libsnarkToLibiop_eq cs]
  have haux : cs.auxiliaryInputSize ≤ padded.auxiliaryInputSize := by
    rw [hpadded]
    exact auxiliaryInputSize_pad cs
  have hprim : (padPrimaryInputToMatchCs padded x).length = padded.primaryInputSize := by
    have hsize : padded.primaryInputSize = cs.primaryInputSize + inputPad lib cs := by
      rw [hpadded, primaryInputSize_pad]
    rw [padPrimaryInputToMatchCs, List.length_append, List.length_replicate,
      R1csConstraintSystem.numInputs, hx, hsize]
    omega
  have hhold (w : List F) := constraints_pad_hold lib (w := w) hrange hx
  rw [← hpadded] at hhold
  refine ⟨fun w hw ↦ ?_, fun w hw hsat ↦ ⟨hx, ?_, (hhold w).mp hsat.2.2⟩⟩
  · have hlen : (padAuxiliaryInputToMatchCs padded w).length = padded.auxiliaryInputSize := by
      rw [padAuxiliaryInputToMatchCs, List.length_append, List.length_replicate, hw]
      omega
    have htake : (padAuxiliaryInputToMatchCs padded w).take cs.auxiliaryInputSize = w := by
      rw [padAuxiliaryInputToMatchCs, ← hw, List.take_left]
    have hiff := hhold (padAuxiliaryInputToMatchCs padded w)
    rw [htake] at hiff
    exact ⟨fun hsat ↦ ⟨hprim, hlen, hiff.mpr hsat.2.2⟩, fun hsat ↦ ⟨hx, hw, hiff.mp hsat.2.2⟩⟩
  · rw [List.length_take, hw]
    omega

def productSystem : R1csConstraintSystem (ZMod 7) where
  primaryInputSize := 2
  auxiliaryInputSize := 1
  constraints := [⟨[⟨1, 1⟩], [⟨2, 1⟩], [⟨3, 1⟩]⟩]

def roundingUp : Libiop (ZMod 7) where
  log2 := Nat.clog 2
  log2_eq _ := rfl
  zeroCombination := [⟨0, 0⟩]
  evaluate_zero z := by simp [LinearCombination.evaluate]

theorem padding_keeps_product :
    let padded := padConstraintSystemForAurora roundingUp
      (libsnarkToLibiopR1csConstraintSystem productSystem)
    (∀ w : List (ZMod 7), w.length = 1 →
      (productSystem.IsSatisfied [2, 3] w ↔ padded.IsSatisfied
        (padPrimaryInputToMatchCs padded [2, 3]) (padAuxiliaryInputToMatchCs padded w))) ∧
    ∀ w : List (ZMod 7), w.length = padded.auxiliaryInputSize →
      padded.IsSatisfied (padPrimaryInputToMatchCs padded [2, 3]) w →
        productSystem.IsSatisfied [2, 3] (w.take 1) :=
  padding_keeps_statement roundingUp productSystem
    (by simp [R1csConstraintSystem.InRange, R1csConstraintSystem.numVariables, Constraint.terms,
      productSystem]) [2, 3] rfl

end FheBlockchain.Computer.Padding
