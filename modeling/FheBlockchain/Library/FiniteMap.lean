import Mathlib.Algebra.BigOperators.Group.Finset.Basic
import Mathlib.Data.Finmap

namespace FheBlockchain.Library.FiniteMap

variable {K V : Type} [DecidableEq K]

theorem lookup_insert_ite (m : Finmap fun _ : K ↦ V) (a x : K) (v : V) :
    (m.insert a v).lookup x = if x = a then some v else m.lookup x := by
  split_ifs with h
  · subst h
    exact Finmap.lookup_insert m
  · exact Finmap.lookup_insert_of_ne m h

theorem lookup_erase_ite (m : Finmap fun _ : K ↦ V) (a x : K) :
    (m.erase a).lookup x = if x = a then none else m.lookup x := by
  split_ifs with h
  · subst h
    exact Finmap.lookup_erase x m
  · exact Finmap.lookup_erase_ne h

theorem keys_insert (m : Finmap fun _ : K ↦ V) (a : K) (v : V) :
    (m.insert a v).keys = insert a m.keys := by
  ext x
  simp [Finmap.mem_keys, Finmap.mem_insert]

def total (f : V → ℕ) (m : Finmap fun _ : K ↦ V) : ℕ :=
  ∑ k ∈ m.keys, (m.lookup k).elim 0 f

variable (f : V → ℕ) {m : Finmap fun _ : K ↦ V} {k : K} {v : V}

theorem total_insert (h : k ∉ m) : total f (m.insert k v) = total f m + f v := by
  have hk : k ∉ m.keys := by rwa [Finmap.mem_keys]
  rw [total, keys_insert, Finset.sum_insert hk, Finmap.lookup_insert, add_comm]
  refine congrArg (· + f v) (Finset.sum_congr rfl fun x hx ↦ ?_)
  have hne : x ≠ k := by
    rintro rfl
    exact hk hx
  rw [Finmap.lookup_insert_of_ne m hne]

theorem total_erase (h : m.lookup k = some v) : total f (m.erase k) + f v = total f m := by
  have hk : k ∈ m.keys := Finmap.mem_keys.mpr (Finmap.mem_of_lookup_eq_some h)
  rw [total, total, Finmap.keys_erase, ← Finset.sum_erase_add _ _ hk, h]
  refine congrArg (· + f v) (Finset.sum_congr rfl fun x hx ↦ ?_)
  rw [Finmap.lookup_erase_ne (Finset.ne_of_mem_erase hx)]

end FheBlockchain.Library.FiniteMap
