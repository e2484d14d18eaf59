import Mathlib.Algebra.Order.Ring.Nat
import Mathlib.Tactic.Ring

namespace FheBlockchain.Library.BigEndian

/-- The last `k` bytes of a number, the most significant first. -/
def bigEndian : ℕ → ℕ → List UInt8
  | 0, _ => []
  | k + 1, n => bigEndian k (n / 256) ++ [UInt8.ofNat n]

def ofBigEndian (bytes : List UInt8) : ℕ := bytes.foldl (fun acc b ↦ 256 * acc + b.toNat) 0

@[simp]
theorem length_bigEndian (k n : ℕ) : (bigEndian k n).length = k := by
  induction k generalizing n with
  | zero => rfl
  | succ k ih => simp [bigEndian, ih]

theorem ofBigEndian_append (bytes : List UInt8) (b : UInt8) :
    ofBigEndian (bytes ++ [b]) = 256 * ofBigEndian bytes + b.toNat := by
  simp [ofBigEndian]

theorem ofBigEndian_bigEndian (k n : ℕ) : ofBigEndian (bigEndian k n) = n % 256 ^ k := by
  induction k generalizing n with
  | zero => simp [bigEndian, ofBigEndian, Nat.mod_one]
  | succ k ih =>
    rw [bigEndian, ofBigEndian_append, ih, Nat.pow_succ', Nat.mod_mul, UInt8.toNat_ofNat']
    omega

theorem bigEndian_inj {k n m : ℕ} (hn : n < 256 ^ k) (hm : m < 256 ^ k)
    (h : bigEndian k n = bigEndian k m) : n = m := by
  have := congrArg ofBigEndian h
  rwa [ofBigEndian_bigEndian, ofBigEndian_bigEndian, Nat.mod_eq_of_lt hn,
    Nat.mod_eq_of_lt hm] at this

theorem bigEndian_append_lt {k n m : ℕ} (r s : List UInt8) (hm : m < 256 ^ k) (h : n < m) :
    bigEndian k n ++ r < bigEndian k m ++ s := by
  induction k generalizing n m r s with
  | zero => omega
  | succ k ih =>
    rw [bigEndian, bigEndian, List.append_assoc, List.append_assoc]
    rw [Nat.pow_succ] at hm
    rcases Nat.lt_or_ge (n / 256) (m / 256) with hlt | hge
    · exact ih _ _ (by omega) hlt
    · obtain heq : n / 256 = m / 256 := by omega
      rw [heq]
      apply List.append_left_lt
      rw [List.singleton_append, List.singleton_append, List.cons_lt_cons_iff]
      left
      rw [UInt8.lt_iff_toNat_lt, UInt8.toNat_ofNat', UInt8.toNat_ofNat']
      omega

end FheBlockchain.Library.BigEndian
