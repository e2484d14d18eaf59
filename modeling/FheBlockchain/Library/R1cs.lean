import Mathlib.Algebra.BigOperators.Group.List.Basic
import Mathlib.Algebra.Ring.Defs
import Mathlib.Tactic.Cases

namespace FheBlockchain.Library.R1cs

variable {R : Type} [CommSemiring R]

structure LinearTerm (R : Type) where
  index : ℕ
  coeff : R

abbrev LinearCombination (R : Type) := List (LinearTerm R)

namespace LinearCombination

def evaluate (z : ℕ → R) (lc : LinearCombination R) : R :=
  (lc.map fun term ↦ z term.index * term.coeff).sum

def rename (f : ℕ → ℕ) (lc : LinearCombination R) : LinearCombination R :=
  lc.map fun term ↦ { term with index := f term.index }

theorem evaluate_rename (f : ℕ → ℕ) (z : ℕ → R) (lc : LinearCombination R) :
    (rename f lc).evaluate z = lc.evaluate (z ∘ f) := by
  simp only [evaluate, rename, List.map_map]
  rfl

theorem evaluate_congr {z z' : ℕ → R} {lc : LinearCombination R}
    (h : ∀ term ∈ lc, z term.index = z' term.index) : lc.evaluate z = lc.evaluate z' := by
  rw [evaluate, evaluate, List.map_congr_left fun term hterm ↦ by rw [h term hterm]]

omit [CommSemiring R] in
theorem rename_id (lc : LinearCombination R) : rename id lc = lc := by
  simp [rename]

end LinearCombination

structure Constraint (R : Type) where
  a : LinearCombination R
  b : LinearCombination R
  c : LinearCombination R

namespace Constraint

variable {z z' : ℕ → R} {f : ℕ → ℕ} {k : Constraint R}

def Holds (z : ℕ → R) (k : Constraint R) : Prop := k.a.evaluate z * k.b.evaluate z = k.c.evaluate z

def terms (k : Constraint R) : List (LinearTerm R) := k.a ++ k.b ++ k.c

def rename (f : ℕ → ℕ) (k : Constraint R) : Constraint R where
  a := k.a.rename f
  b := k.b.rename f
  c := k.c.rename f

omit [CommSemiring R] in
theorem rename_id (k : Constraint R) : k.rename id = k := by
  simp [rename, LinearCombination.rename_id]

theorem holds_rename : (k.rename f).Holds z ↔ k.Holds (z ∘ f) := by
  simp only [Holds, rename, LinearCombination.evaluate_rename]

theorem holds_congr (h : ∀ term ∈ k.terms, z term.index = z' term.index) :
    k.Holds z ↔ k.Holds z' := by
  have heval {lc : LinearCombination R} (hlc : ∀ term ∈ lc, term ∈ k.terms) :
      lc.evaluate z = lc.evaluate z' :=
    LinearCombination.evaluate_congr fun term hterm ↦ h term (hlc term hterm)
  rw [Holds, Holds, heval (by simp +contextual [terms]), heval (by simp +contextual [terms]),
    heval (by simp +contextual [terms])]

end Constraint

def assignment (values : List R) : ℕ → R
  | 0 => 1
  | i + 1 => values.getD i 0

def shift (n pad i : ℕ) : ℕ := if n < i then i + pad else i

theorem shift_zero (n : ℕ) : shift n 0 = id := by
  funext i
  simp [shift]

theorem assignment_shift {x w : List R} (pad : List R) {m i : ℕ}
    (hi : i ≤ x.length + m) :
    assignment ((x ++ pad) ++ w) (shift x.length pad.length i) =
      assignment (x ++ w.take m) i := by
  cases i with
  | zero => simp [shift, assignment]
  | succ i =>
    rw [shift]
    split_ifs with hlt
    · have h₁ : x.length ≤ i := by omega
      have h₂ : x.length + pad.length ≤ i + pad.length := by omega
      rw [show i + 1 + pad.length = (i + pad.length) + 1 by omega]
      simp only [assignment, List.getD_eq_getElem?_getD]
      rw [List.getElem?_append_right (by simpa using h₂), List.getElem?_append_right h₁,
        List.getElem?_take, if_pos (by omega), List.length_append]
      congr 2
      omega
    · simp only [assignment, List.getD_eq_getElem?_getD]
      rw [List.append_assoc, List.getElem?_append_left (by omega),
        List.getElem?_append_left (by omega)]

end FheBlockchain.Library.R1cs
