import FheBlockchain.Computer.Padding
import Mathlib.Order.Bounds.Basic

namespace FheBlockchain.Computer.PaddedShape

open Padding Library.R1cs

variable {F : Type} [CommSemiring F] {lib : Libiop F} {cs : R1csConstraintSystem F}

def NextPower (n p : ℕ) : Prop := IsLeast {q | (∃ k, q = 2 ^ k) ∧ n ≤ q} p

theorem nextPower_log2 (lib : Libiop F) (n : ℕ) : NextPower n (2 ^ lib.log2 n) := by
  refine ⟨⟨⟨_, rfl⟩, le_two_pow_log2 lib n⟩, ?_⟩
  rintro q ⟨⟨k, rfl⟩, hle⟩
  rw [lib.log2_eq]
  exact Nat.pow_le_pow_right Nat.two_pos (Nat.clog_le_of_le_pow hle)

theorem two_pow_log2 (lib : Libiop F) (k : ℕ) : 2 ^ lib.log2 (2 ^ k) = 2 ^ k := by
  rw [lib.log2_eq, Nat.clog_pow 2 k Nat.one_lt_two]

/-- What is missing to the next power of two, as it is computed in 64 bits. -/
def padAmount (lib : Libiop F) (n : UInt64) : UInt64 :=
  (1 <<< UInt64.ofNat (lib.log2 n.toNat)) - n

theorem log2_lt (lib : Libiop F) {n : ℕ} (hn : n ≤ 2 ^ 63) : lib.log2 n < 64 := by
  rw [lib.log2_eq]
  exact Nat.lt_succ_of_le (Nat.clog_le_of_le_pow hn)

theorem toNat_padAmount (lib : Libiop F) {n : ℕ} (hn : n ≤ 2 ^ 63) :
    (padAmount lib (UInt64.ofNat n)).toNat = 2 ^ lib.log2 n - n := by
  have hlt := log2_lt lib hn
  have hle := le_two_pow_log2 lib n
  have hpow : 2 ^ lib.log2 n < 2 ^ 64 := Nat.pow_lt_pow_right Nat.one_lt_two hlt
  have hsize : (UInt64.ofNat n).toNat = n := Nat.mod_eq_of_lt (by omega)
  have hlog : (UInt64.ofNat (lib.log2 n)).toNat = lib.log2 n := Nat.mod_eq_of_lt (by omega)
  have hshift : ((1 : UInt64) <<< UInt64.ofNat (lib.log2 n)).toNat = 2 ^ lib.log2 n := by
    rw [UInt64.toNat_shiftLeft, hlog, Nat.mod_eq_of_lt hlt, UInt64.toNat_one, Nat.one_shiftLeft,
      Nat.mod_eq_of_lt hpow]
  rw [padAmount, hsize, UInt64.toNat_sub_of_le, hshift, hsize]
  rw [UInt64.le_iff_toNat_le, hshift, hsize]
  exact hle

omit [CommSemiring F] in
theorem index_of_mem_rename {f : ℕ → ℕ} {k : Constraint F} {term : LinearTerm F}
    (h : term ∈ (k.rename f).terms) : ∃ t ∈ k.terms, term.index = f t.index := by
  simp only [Constraint.terms, Constraint.rename, LinearCombination.rename, ← List.map_append,
    List.mem_map] at h
  obtain ⟨t, ht, rfl⟩ := h
  exact ⟨t, ht, rfl⟩

theorem inRange_pad (hzero : ∀ term ∈ lib.zeroCombination, term.index = 0) (hrange : cs.InRange) :
    (padConstraintSystemForAurora lib cs).InRange := by
  have hroom : cs.numVariables + inputPad lib cs ≤
      (padConstraintSystemForAurora lib cs).numVariables := by
    have haux := @auxiliaryInputSize_pad F _ lib cs
    rw [R1csConstraintSystem.numVariables, R1csConstraintSystem.numVariables, primaryInputSize_pad]
    omega
  obtain ⟨n, hcons⟩ := constraints_pad lib cs
  intro c hc term hterm
  rw [hcons, List.mem_append] at hc
  rcases hc with hc | hc
  · obtain ⟨c', hc', rfl⟩ := List.mem_map.mp hc
    obtain ⟨t, ht, hindex⟩ := index_of_mem_rename hterm
    have hle := hrange c' hc' t ht
    rw [hindex, shift]
    split_ifs <;> omega
  · rw [List.eq_of_mem_replicate hc] at hterm
    simp only [Constraint.terms, List.mem_append, or_self] at hterm
    rw [hzero term hterm]
    exact Nat.zero_le _

theorem pad_eq_self (hconstraints : 2 ^ lib.log2 cs.numConstraints = cs.numConstraints)
    (hinputs : 2 ^ lib.log2 (cs.numInputs + 1) = cs.numInputs + 1)
    (hvariables : 2 ^ lib.log2 (cs.numVariables + 1) = cs.numVariables + 1) :
    padConstraintSystemForAurora lib cs = cs := by
  have hkeeps : padConstraintsToNextPowerOfTwo lib cs = cs := by
    rw [padConstraintsToNextPowerOfTwo_eq, hconstraints, Nat.sub_self, List.replicate_zero,
      List.append_nil]
  simp only [padConstraintSystemForAurora, hinputs, Nat.sub_self, Nat.lt_irrefl, if_false, hkeeps,
    hvariables, Nat.add_zero]

/-- The shape that the prover requires, reached from `cs`. The sizes that are
rounded up are those of `cs`, but for the variables, of which the padded inputs
are some. -/
structure AuroraShape (lib : Libiop F) (cs padded : R1csConstraintSystem F) : Prop where
  constraints : NextPower cs.numConstraints padded.numConstraints
  inputs : NextPower (cs.numInputs + 1) (padded.numInputs + 1)
  unknowns : (∃ k, padded.numVariables + 1 = 2 ^ k) ∧ cs.numVariables ≤ padded.numVariables
  inRange : padded.InRange
  primaryLeft : ∀ prim : List F, prim.length = cs.primaryInputSize → prim.length ≤ padded.numInputs
  auxiliaryLeft : ∀ aux : List F, aux.length = cs.auxiliaryInputSize →
    aux.length ≤ padded.auxiliaryInputSize
  again : padConstraintSystemForAurora lib padded = padded
  words : ∀ n ∈ [cs.numConstraints, cs.numInputs + 1, cs.numVariables + inputPad lib cs + 1],
    n ≤ 2 ^ 63 → lib.log2 n < 64 ∧ (padAmount lib (UInt64.ofNat n)).toNat = 2 ^ lib.log2 n - n

/-- Padding gives every system the shape that the prover requires. libiop builds
the linear combination 0 from the constant. -/
theorem padded_shape (hzero : ∀ term ∈ lib.zeroCombination, term.index = 0) (hrange : cs.InRange) :
    AuroraShape lib cs (padConstraintSystemForAurora lib cs) := by
  have hprimary : cs.primaryInputSize ≤ (padConstraintSystemForAurora lib cs).primaryInputSize := by
    rw [primaryInputSize_pad]
    exact Nat.le_add_right _ _
  have hauxiliary := @auxiliaryInputSize_pad F _ lib cs
  constructor
  case constraints =>
    rw [numConstraints_pad]
    exact nextPower_log2 lib _
  case inputs =>
    rw [numInputs_pad]
    exact nextPower_log2 lib _
  case unknowns => exact ⟨⟨_, numVariables_pad cs⟩, Nat.add_le_add hprimary hauxiliary⟩
  case inRange => exact inRange_pad hzero hrange
  case primaryLeft => exact fun prim h ↦ h.trans_le hprimary
  case auxiliaryLeft => exact fun aux h ↦ h.trans_le hauxiliary
  case again =>
    refine pad_eq_self ?_ ?_ ?_
    · rw [numConstraints_pad, two_pow_log2]
    · rw [numInputs_pad, two_pow_log2]
    · rw [numVariables_pad, two_pow_log2]
  case words => exact fun n _ hn ↦ ⟨log2_lt lib hn, toNat_padAmount lib hn⟩

theorem padded_shape_product : AuroraShape roundingUp productSystem
    (padConstraintSystemForAurora roundingUp productSystem) :=
  padded_shape (by simp [roundingUp])
    (by simp [R1csConstraintSystem.InRange, R1csConstraintSystem.numVariables, Constraint.terms,
      productSystem])

end FheBlockchain.Computer.PaddedShape
