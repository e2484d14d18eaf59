import Mathlib.Algebra.Order.Ring.Nat
import Mathlib.Tactic.Ring

namespace FheBlockchain.Library.BitGroups

/-- The last `w` bits of a number, the most significant first. -/
def bits : ℕ → ℕ → List Bool
  | 0, _ => []
  | w + 1, n => bits w (n / 2) ++ [n.testBit 0]

@[simp]
theorem length_bits (w n : ℕ) : (bits w n).length = w := by
  induction w generalizing n with
  | zero => rfl
  | succ w ih => rw [bits, List.length_append, ih, List.length_singleton]

@[simp]
theorem bits_zero (w : ℕ) : bits w 0 = List.replicate w false := by
  induction w with
  | zero => rfl
  | succ w ih => rw [bits, Nat.zero_div, ih, Nat.zero_testBit, List.replicate_succ']

theorem bits_append {w b : ℕ} (v a : ℕ) (hb : b < 2 ^ w) :
    bits v a ++ bits w b = bits (v + w) (2 ^ w * a + b) := by
  induction w generalizing b with
  | zero =>
    obtain rfl : b = 0 := by omega
    simp [bits]
  | succ w ih =>
    have hhalf : (2 ^ (w + 1) * a + b) / 2 = 2 ^ w * a + b / 2 := by
      rw [Nat.pow_succ', Nat.mul_assoc, Nat.mul_add_div Nat.two_pos]
    have hbit : (2 ^ (w + 1) * a + b).testBit 0 = b.testBit 0 := by
      rw [Nat.testBit_zero, Nat.testBit_zero, Nat.pow_succ', Nat.mul_assoc, Nat.mul_add_mod]
    rw [Nat.pow_succ] at hb
    rw [← Nat.add_assoc, bits, bits, hhalf, hbit, ← ih (by omega), List.append_assoc]

theorem bits_split (v w n : ℕ) : bits (v + w) n = bits v (n / 2 ^ w) ++ bits w (n % 2 ^ w) := by
  rw [bits_append v _ (Nat.mod_lt n (Nat.two_pow_pos w)), Nat.div_add_mod]

theorem bits_inj {w n m : ℕ} (hn : n < 2 ^ w) (hm : m < 2 ^ w) (h : bits w n = bits w m) :
    n = m := by
  induction w generalizing n m with
  | zero => omega
  | succ w ih =>
    rw [Nat.pow_succ] at hn hm
    obtain ⟨hinit, hlast⟩ := List.append_inj' h rfl
    have hhalf := ih (by omega) (by omega) hinit
    have hbit : n % 2 = 1 ↔ m % 2 = 1 := by
      have := List.singleton_inj.mp hlast
      rw [Nat.testBit_zero, Nat.testBit_zero] at this
      exact decide_eq_decide.mp this
    omega

section Groups

variable {α : Type} {w : ℕ} {f : α → ℕ}

theorem length_groups (xs : List α) :
    (xs.flatMap fun x ↦ bits w (f x)).length = w * xs.length := by
  induction xs with
  | nil => rfl
  | cons x xs ih =>
    rw [List.flatMap_cons, List.length_append, ih, length_bits, List.length_cons]
    ring

theorem ne_group {rest bs : List Bool} {n : ℕ} (hrest : rest.length < w) :
    rest ≠ bits w n ++ bs := by
  rintro rfl
  rw [List.length_append, length_bits] at hrest
  omega

theorem groups_inj (hf : Function.Injective f) (hlt : ∀ x, f x < 2 ^ w) {xs ys : List α}
    {rest rest' : List Bool} (hrest : rest.length < w) (hrest' : rest'.length < w)
    (h : (xs.flatMap fun x ↦ bits w (f x)) ++ rest = (ys.flatMap fun y ↦ bits w (f y)) ++ rest') :
    xs = ys := by
  induction xs generalizing ys with
  | nil =>
    cases ys with
    | nil => rfl
    | cons y ys =>
      rw [List.flatMap_nil, List.nil_append, List.flatMap_cons, List.append_assoc] at h
      exact absurd h (ne_group hrest)
  | cons x xs ih =>
    cases ys with
    | nil =>
      rw [List.flatMap_nil, List.nil_append, List.flatMap_cons, List.append_assoc] at h
      exact absurd h.symm (ne_group hrest')
    | cons y ys =>
      rw [List.flatMap_cons, List.flatMap_cons, List.append_assoc, List.append_assoc] at h
      obtain ⟨hhead, htail⟩ := List.append_inj h (by rw [length_bits, length_bits])
      rw [hf (bits_inj (hlt x) (hlt y) hhead), ih htail]

end Groups

end FheBlockchain.Library.BitGroups
