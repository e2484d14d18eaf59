import FheBlockchain.Chain.HeaderCommitment
import FheBlockchain.Core.Amounts

namespace FheBlockchain.Chain.MerkleBinding

open Core.Transactions Core.Amounts Core.Blocks HeaderCommitment
open Library.PairTree

variable {na : Sodium} {level l₁ l₂ hashed hashed₁ hashed₂ : List Bytes} {root root' : Bytes}

/-- The calls of `compute_root` from a level on, down to the one that returns the
root, with the strings that they hash. -/
inductive Computes (na : Sodium) : List Bytes → List Bytes → Bytes → Prop
  | last (root : Bytes) : Computes na [root] [] root
  | next {level hashed : List Bytes} {root : Bytes} (h : level.length ≠ 1)
    (hnext : Computes na (Merkle.nextLevel na level) hashed root) :
    Computes na level ((pairs level).map (fun p ↦ p.1 ++ p.2) ++ hashed) root

theorem Computes.ne_nil (h : Computes na level hashed root) : level ≠ [] := by
  induction h with
  | last root => simp
  | next h hnext ih =>
    rintro rfl
    exact ih rfl

theorem Computes.unique (h : Computes na level hashed root)
    (h' : Computes na level hashed₁ root') : hashed₁ = hashed ∧ root' = root := by
  induction h generalizing hashed₁ with
  | last root =>
    cases h' with
    | last => exact ⟨rfl, rfl⟩
    | next hlen => exact absurd rfl hlen
  | next hlen hnext ih =>
    cases h' with
    | last => exact absurd rfl hlen
    | next _ hnext' =>
      obtain ⟨rfl, rfl⟩ := ih hnext'
      exact ⟨rfl, rfl⟩

theorem computes_computeRoot {fuel : ℕ} (hne : level ≠ []) (hfuel : level.length ≤ fuel + 1) :
    Computes na level (hashedFor na fuel level) (Merkle.computeRoot na fuel level) := by
  have hpos := List.length_pos_iff.mpr hne
  induction fuel generalizing level with
  | zero =>
    obtain ⟨x, rfl⟩ := List.length_eq_one_iff.mp (show level.length = 1 by omega)
    exact .last x
  | succ fuel ih =>
    rw [hashedFor, Merkle.computeRoot]
    split_ifs with h1
    · obtain ⟨x, rfl⟩ := List.length_eq_one_iff.mp h1
      exact .last x
    · have hlen := Merkle.length_nextLevel na level
      exact .next h1 (ih (List.length_pos_iff.mp (by omega)) (by omega) (by omega))

theorem computes_iff : Computes na level hashed root ↔ level ≠ [] ∧
    hashed = hashedFor na level.length level ∧
      root = Merkle.computeRoot na level.length level := by
  constructor
  · intro h
    exact ⟨h.ne_nil, (computes_computeRoot h.ne_nil (Nat.le_succ _)).unique h⟩
  · rintro ⟨hne, rfl, rfl⟩
    exact computes_computeRoot hne (Nat.le_succ _)

def Collision (na : Sodium) (hashed₁ hashed₂ : List Bytes) : Prop :=
  ∃ x ∈ hashed₁, ∃ y ∈ hashed₂, x.length = 64 ∧ y.length = 64 ∧ x ≠ y ∧ na.hash x = na.hash y

theorem Collision.mono {more₁ more₂ : List Bytes} (h : Collision na hashed₁ hashed₂) :
    Collision na (more₁ ++ hashed₁) (more₂ ++ hashed₂) := by
  obtain ⟨x, hx, y, hy, h⟩ := h
  exact ⟨x, List.mem_append_right _ hx, y, List.mem_append_right _ hy, h⟩

theorem length_of_mem_nextLevel : ∀ x ∈ Merkle.nextLevel na level, x.length = 32 := by
  intro x hx
  rw [nextLevel_eq] at hx
  obtain ⟨p, -, rfl⟩ := List.mem_map.mp hx
  exact na.length_hash _

/-- One level: its pairs are told apart, or two of them collide. -/
theorem level_binds (hl₁ : ∀ x ∈ l₁, x.length = 32) (hl₂ : ∀ x ∈ l₂, x.length = 32)
    (hlen : l₁.length = l₂.length) (h : Merkle.nextLevel na l₁ = Merkle.nextLevel na l₂) :
    l₁ = l₂ ∨ Collision na ((pairs l₁).map fun p ↦ p.1 ++ p.2)
      ((pairs l₂).map fun p ↦ p.1 ++ p.2) := by
  rw [nextLevel_eq, nextLevel_eq] at h
  refine (up_eq_or hlen h).imp_right ?_
  rintro ⟨p, hp, q, hq, hne, he⟩
  have hp' := mem_of_mem_pairs hp
  have hq' := mem_of_mem_pairs hq
  have hp₁ := hl₁ _ hp'.1
  have hp₂ := hl₁ _ hp'.2
  have hq₁ := hl₂ _ hq'.1
  have hq₂ := hl₂ _ hq'.2
  refine ⟨_, List.mem_map_of_mem hp, _, List.mem_map_of_mem hq, ?_, ?_, fun happ ↦ ?_, he⟩
  · rw [List.length_append, hp₁, hp₂]
  · rw [List.length_append, hq₁, hq₂]
  · obtain ⟨h₁, h₂⟩ := List.append_inj happ (hp₁.trans hq₁.symm)
    exact hne (Prod.ext h₁ h₂)

theorem Computes.binds (h₁ : Computes na l₁ hashed₁ root) (h₂ : Computes na l₂ hashed₂ root)
    (hl₁ : ∀ x ∈ l₁, x.length = 32) (hl₂ : ∀ x ∈ l₂, x.length = 32)
    (hlen : l₁.length = l₂.length) : l₁ = l₂ ∨ Collision na hashed₁ hashed₂ := by
  induction h₁ generalizing l₂ hashed₂ with
  | last root =>
    cases h₂ with
    | last => exact .inl rfl
    | next h => exact absurd hlen.symm h
  | @next l hashed root h hnext ih =>
    cases h₂ with
    | last => exact absurd hlen h
    | next _ hnext' =>
      have hlen' : (Merkle.nextLevel na l).length = (Merkle.nextLevel na l₂).length := by
        rw [Merkle.length_nextLevel, Merkle.length_nextLevel, hlen]
      rcases ih hnext' length_of_mem_nextLevel length_of_mem_nextLevel hlen' with heq | hcoll
      · refine (level_binds hl₁ hl₂ hlen heq).imp_right ?_
        rintro ⟨x, hx, y, hy, h⟩
        exact ⟨x, List.mem_append_left _ hx, y, List.mem_append_left _ hy, h⟩
      · exact .inr hcoll.mono

def sampleLeaves (byte : UInt8) : List Bytes := [zeros 32, List.replicate 32 byte, zeros 32]

end FheBlockchain.Chain.MerkleBinding
