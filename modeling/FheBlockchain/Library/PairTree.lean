import Mathlib.Data.List.Basic
import Mathlib.Data.Set.Defs
import Mathlib.Tactic.Ring

namespace FheBlockchain.Library.PairTree

variable {α : Type}

/-- The neighbours of a level. The last value of an odd level is its own
neighbour. -/
def pairs : List α → List (α × α)
  | a :: b :: rest => (a, b) :: pairs rest
  | [a] => [(a, a)]
  | [] => []

variable (join : α × α → α)

def up (level : List α) : List α := (pairs level).map join

def levels (leaves : List α) : ℕ → List α
  | 0 => leaves
  | i + 1 => up join (levels leaves i)

theorem length_pairs (level : List α) : (pairs level).length = (level.length + 1) / 2 := by
  fun_induction pairs level with
  | case1 a b rest ih =>
    simp only [List.length_cons, ih]
    omega
  | case2 | case3 => simp

theorem pairs_inj {l l' : List α} (hlen : l.length = l'.length) (h : pairs l = pairs l') :
    l = l' := by
  fun_induction pairs l generalizing l' with
  | case1 a b rest ih =>
    match l' with
    | [] => simp at hlen
    | [_] => simp at hlen
    | a' :: b' :: rest' =>
      simp only [pairs, List.cons.injEq, Prod.mk.injEq] at h
      rw [h.1.1, h.1.2, ih (by simpa using hlen) h.2]
  | case2 a =>
    match l' with
    | [] => simp at hlen
    | [a'] =>
      simp only [pairs, List.cons.injEq, Prod.mk.injEq, and_true, and_self] at h
      rw [h]
    | _ :: _ :: _ => simp at hlen
  | case3 => exact (List.length_eq_zero_iff.mp hlen.symm).symm

theorem pairs_eq_of_lt {l l' : List α} (hlt : l.length < l'.length) (h : pairs l = pairs l') :
    l'.length = l.length + 1 ∧ l'.length % 2 = 0 ∧
      l'[l'.length - 2]? = l'[l'.length - 1]? := by
  fun_induction pairs l generalizing l' with
  | case1 a b rest ih =>
    match l' with
    | [] => simp at hlt
    | [_] => simp at hlt
    | a' :: b' :: rest' =>
      simp only [pairs, List.cons.injEq] at h
      obtain ⟨hlen, heven, hlast⟩ := ih (by simpa using hlt) h.2
      simp only [List.length_cons] at hlen heven ⊢
      refine ⟨by omega, by omega, ?_⟩
      rw [show rest'.length + 1 + 1 - 2 = (rest'.length - 2) + 1 + 1 by omega,
        show rest'.length + 1 + 1 - 1 = (rest'.length - 1) + 1 + 1 by omega]
      simpa using hlast
  | case2 a =>
    match l' with
    | [] => simp at hlt
    | [_] => simp at hlt
    | [a', b'] =>
      simp only [pairs, List.cons.injEq, Prod.mk.injEq, and_true] at h
      simp [← h.1, ← h.2]
    | _ :: _ :: _ :: _ =>
      have := congrArg List.length h
      simp [length_pairs] at this
      omega
  | case3 =>
    have := congrArg List.length h
    simp only [length_pairs, List.length_nil] at this hlt
    omega

theorem pairs_get {level : List α} {j : ℕ} {p : α × α} (h : (pairs level)[j]? = some p) :
    level[2 * j]? = some p.1 := by
  fun_induction pairs level generalizing j with
  | case1 a b rest ih =>
    cases j with
    | zero =>
      obtain rfl := Option.some.inj h
      rfl
    | succ j =>
      rw [show 2 * (j + 1) = 2 * j + 1 + 1 by ring]
      exact ih h
  | case2 a =>
    cases j with
    | zero =>
      obtain rfl := Option.some.inj h
      rfl
    | succ j => simp at h
  | case3 => simp at h

theorem mem_of_mem_pairs {level : List α} {p : α × α} (h : p ∈ pairs level) :
    p.1 ∈ level ∧ p.2 ∈ level := by
  fun_induction pairs level with
  | case1 a b rest ih =>
    rcases List.mem_cons.mp h with rfl | h
    · simp
    · obtain ⟨h₁, h₂⟩ := ih h
      exact ⟨by simp [h₁], by simp [h₂]⟩
  | case2 a =>
    rw [List.mem_singleton.mp h]
    simp
  | case3 => simp at h

variable {join} {ls ms : List α} {c d : ℕ} {S : Set (α × α)}

/-- Equal next levels come from equal levels, or from different pairs that are
joined to one value. -/
theorem up_eq_or {l l' : List α} (hlen : l.length = l'.length) (h : up join l = up join l') :
    l = l' ∨ ∃ p ∈ pairs l, ∃ q ∈ pairs l', p ≠ q ∧ join p = join q := by
  by_cases hpairs : pairs l = pairs l'
  · exact .inl (pairs_inj hlen hpairs)
  · right
    by_contra hnone
    push Not at hnone
    have hlen' : (pairs l).length = (pairs l').length := by rw [length_pairs, length_pairs, hlen]
    refine hpairs (List.ext_getElem hlen' fun i hi hi' ↦ ?_)
    by_contra hne
    refine hnone _ (List.getElem_mem hi) _ (List.getElem_mem hi') hne ?_
    have hat := congrArg (·[i]?) h
    simpa [up, List.getElem?_eq_getElem hi, List.getElem?_eq_getElem hi'] using hat

def Joined (join : α × α → α) (S : Set (α × α)) (leaves : List α) (d : ℕ) : Prop :=
  ∀ i < d, ∀ p ∈ pairs (levels join leaves i), p ∈ S

theorem levels_up (leaves : List α) (i : ℕ) :
    levels join (up join leaves) i = levels join leaves (i + 1) := by
  induction i with
  | zero => rfl
  | succ i ih =>
    rw [levels, ih]
    rfl

theorem length_levels_congr (h : ls.length = ms.length) (i : ℕ) :
    (levels join ls i).length = (levels join ms i).length := by
  induction i with
  | zero => exact h
  | succ i ih => simp only [levels, up, List.length_map, length_pairs, ih]

theorem length_levels_mono (join : α × α → α) (h : ls.length ≤ ms.length) (i : ℕ) :
    (levels join ls i).length ≤ (levels join ms i).length := by
  induction i with
  | zero => exact h
  | succ i ih =>
    simp only [levels, up, List.length_map, length_pairs]
    omega

section Injective

variable (hinj : ∀ p ∈ S, ∀ q ∈ S, join p = join q → p = q)
include hinj

theorem pairs_eq_of_up {l l' : List α} (hl : ∀ p ∈ pairs l, p ∈ S) (hl' : ∀ p ∈ pairs l', p ∈ S)
    (h : up join l = up join l') : pairs l = pairs l' := by
  have hlen : (pairs l).length = (pairs l').length := by simpa [up] using congrArg List.length h
  refine List.ext_getElem hlen fun i hi hi' ↦ ?_
  have hat := congrArg (·[i]?) h
  simp only [up, List.getElem?_map, List.getElem?_eq_getElem hi, List.getElem?_eq_getElem hi',
    Option.map_some, Option.some.injEq] at hat
  exact hinj _ (hl _ (List.getElem_mem hi)) _ (hl' _ (List.getElem_mem hi')) hat

theorem first_leaf (hls : Joined join S ls c) (hms : Joined join S ms c) {i j k : ℕ} {x : α}
    (hi : i ≤ c) (hj : (levels join ls i)[j]? = some x) (hk : (levels join ms i)[k]? = some x) :
    ∃ y, ls[2 ^ i * j]? = some y ∧ ms[2 ^ i * k]? = some y := by
  induction i generalizing j k x with
  | zero => exact ⟨x, by simpa [levels] using hj, by simpa [levels] using hk⟩
  | succ i ih =>
    simp only [levels, up, List.getElem?_map, Option.map_eq_some_iff] at hj hk
    obtain ⟨p, hp, rfl⟩ := hj
    obtain ⟨q, hq, he⟩ := hk
    obtain rfl := hinj q (hms i (by omega) q (List.mem_of_getElem? hq)) p
      (hls i (by omega) p (List.mem_of_getElem? hp)) he
    have := ih (by omega) (pairs_get hp) (pairs_get hq)
    rwa [show 2 ^ (i + 1) * j = 2 ^ i * (2 * j) by ring,
      show 2 ^ (i + 1) * k = 2 ^ i * (2 * k) by ring]

theorem levels_disjoint (hsep : ∀ x ∈ ls, ∀ p ∈ S, x ≠ join p) (hls : Joined join S ls c)
    (hms : Joined join S ms d) {i k : ℕ} (hik : i < k) (hi : i ≤ c) (hk : k ≤ d) {x : α}
    (hx : x ∈ levels join ls i) : x ∉ levels join ms k := by
  induction i generalizing k x with
  | zero =>
    intro hx'
    obtain ⟨k, rfl⟩ := Nat.exists_eq_add_of_lt hik
    obtain ⟨p, hp, he⟩ := List.mem_map.mp hx'
    exact hsep x hx p (hms _ (by omega) p hp) he.symm
  | succ i ih =>
    intro hx'
    cases k with
    | zero => omega
    | succ k =>
      obtain ⟨p, hp, rfl⟩ := List.mem_map.mp hx
      obtain ⟨q, hq, he⟩ := List.mem_map.mp hx'
      obtain rfl := hinj q (hms k (by omega) q hq) p (hls i (by omega) p hp) he
      exact ih (by omega) (by omega) (by omega) (mem_of_mem_pairs hp).1 (mem_of_mem_pairs hq).1

theorem leaves_eq (hls : Joined join S ls c) (hms : Joined join S ms c)
    (hlen : ls.length = ms.length) (h : levels join ls c = levels join ms c) : ls = ms := by
  induction c with
  | zero => exact h
  | succ c ih =>
    refine ih (fun i hi ↦ hls i (by omega)) (fun i hi ↦ hms i (by omega)) ?_
    exact pairs_inj (length_levels_congr hlen c)
      (pairs_eq_of_up hinj (hls c (by omega)) (hms c (by omega)) h)

/-- Of two trees of different sizes with the same node on top, the larger one
has a leaf twice, and not in the first place. -/
theorem repeated_leaf (hls : Joined join S ls c) (hms : Joined join S ms c)
    (hlt : ls.length < ms.length) (htwo : ∀ i < c, 2 ≤ (levels join ls i).length)
    (h : levels join ls c = levels join ms c) :
    ∃ i k x, 0 < i ∧ i < k ∧ ms[i]? = some x ∧ ms[k]? = some x := by
  induction c with
  | zero =>
    rw [levels, levels] at h
    rw [h] at hlt
    omega
  | succ c ih =>
    by_cases hc : levels join ls c = levels join ms c
    · exact ih (fun i hi ↦ hls i (by omega)) (fun i hi ↦ hms i (by omega))
        (fun i hi ↦ htwo i (by omega)) hc
    · have hpairs := pairs_eq_of_up hinj (hls c (by omega)) (hms c (by omega)) h
      have hle := length_levels_mono join hlt.le c
      have hne : (levels join ls c).length ≠ (levels join ms c).length := fun he ↦
        hc (pairs_inj he hpairs)
      obtain ⟨hlen, heven, hlast⟩ := pairs_eq_of_lt (by omega) hpairs
      have h2 := htwo c (by omega)
      obtain ⟨x, hx⟩ : ∃ x, (levels join ms c)[(levels join ms c).length - 1]? = some x :=
        ⟨_, List.getElem?_eq_getElem (by omega)⟩
      rw [hx] at hlast
      have hms' : Joined join S ms c := fun i hi ↦ hms i (by omega)
      obtain ⟨y, hy, hy'⟩ := first_leaf hinj hms' hms' le_rfl hlast hx
      refine ⟨_, _, y, ?_, ?_, hy, hy'⟩
      · exact Nat.mul_pos (Nat.two_pow_pos c) (by omega)
      · exact Nat.mul_lt_mul_of_pos_left (by omega) (Nat.two_pow_pos c)

end Injective

end FheBlockchain.Library.PairTree
