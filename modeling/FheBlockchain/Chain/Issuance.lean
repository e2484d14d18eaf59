import FheBlockchain.Chain.Supply
import Mathlib.Algebra.Order.Ring.GeomSum

namespace FheBlockchain.Chain.Issuance

open Core.Transactions Validation Supply Accepted
open Library.Results Finset

section Halving

theorem sum_range_div {b : ℕ} (hb : 0 < b) (f : ℕ → ℕ) (k : ℕ) :
    ∑ i ∈ range (b * k), f (i / b) = b * ∑ i ∈ range k, f i := by
  induction k with
  | zero => simp
  | succ k ih =>
    rw [Nat.mul_succ, sum_range_add, ih, sum_range_succ, Nat.mul_add]
    have hperiod : ∀ i ∈ range b, f ((b * k + i) / b) = f k := fun i hi ↦ by
      rw [Nat.mul_add_div hb, Nat.div_eq_of_lt (mem_range.mp hi), Nat.add_zero]
    rw [sum_const_nat hperiod, card_range]

theorem sum_halving_le {b : ℕ} (hb : 0 < b) (r n : ℕ) :
    ∑ i ∈ range n, r / 2 ^ (i / b) ≤ 2 * b * r := by
  have hle : n ≤ b * n := Nat.le_mul_of_pos_left n hb
  calc ∑ i ∈ range n, r / 2 ^ (i / b)
      ≤ ∑ i ∈ range (b * n), r / 2 ^ (i / b) := sum_le_sum_of_subset (range_mono hle)
    _ = b * ∑ i ∈ range n, r / 2 ^ i := sum_range_div hb (fun i ↦ r / 2 ^ i) n
    _ ≤ b * (r * 2) := by
      refine Nat.mul_le_mul_left b ?_
      simpa using Nat.geom_sum_le le_rfl r n
    _ = 2 * b * r := by ring

end Halving

variable {cfg : Config} {h n : UInt32} {r : UInt64}

def epochOf (cfg : Config) (h : UInt32) : ℕ := h.toNat / cfg.blocksPerEpoch.toNat

theorem epochOf_mono (hle : h ≤ n) : epochOf cfg h ≤ epochOf cfg n :=
  Nat.div_le_div_right (UInt32.le_iff_toNat_le.mp hle)

theorem toNat_epoch (h : UInt32) : (h / cfg.blocksPerEpoch).toNat = epochOf cfg h :=
  UInt32.toNat_div ..

theorem rewardForHeight_iff (hb : cfg.blocksPerEpoch ≠ 0) :
    rewardForHeight cfg h = .ok r ↔
      epochOf cfg h < 64 ∧ r.toNat = cfg.reward.toNat / 2 ^ epochOf cfg h := by
  have hepoch : getEpoch cfg h = .ok (h / cfg.blocksPerEpoch) := if_neg hb
  have hlt : h / cfg.blocksPerEpoch < 64 ↔ epochOf cfg h < 64 := by
    rw [UInt32.lt_iff_toNat_lt, toNat_epoch]
    rfl
  simp only [rewardForHeight, hepoch, bind, Except.bind, hlt]
  split_ifs with hdef
  · have hshift : (cfg.reward >>> (h / cfg.blocksPerEpoch).toUInt64).toNat =
        cfg.reward.toNat / 2 ^ epochOf cfg h := by
      rw [UInt64.toNat_shiftRight, UInt32.toNat_toUInt64, toNat_epoch, Nat.mod_eq_of_lt hdef,
        Nat.shiftRight_eq_div_pow]
    rw [← hshift, UInt64.toNat_inj, eq_comm]
    simp [hdef, pure, Except.pure]
  · simp [hdef]

theorem rewardAt_le (hb : cfg.blocksPerEpoch ≠ 0) (height : ℕ) :
    rewardAt cfg height ≤ cfg.reward.toNat / 2 ^ epochOf cfg (UInt32.ofNat height) := by
  rw [rewardAt]
  cases hr : rewardForHeight cfg (UInt32.ofNat height) with
  | ok r => exact ((rewardForHeight_iff hb).mp hr).2.le
  | error e => exact Nat.zero_le _

structure Bounded (cfg : Config) (n : UInt32) : Prop where
  halved : ∀ h ≤ n, ∃ r, rewardForHeight cfg h = .ok r ∧
    r.toNat = cfg.reward.toNat / 2 ^ epochOf cfg h
  antitone : ∀ h h', h ≤ h' → h' ≤ n → ∀ r r', rewardForHeight cfg h = .ok r →
    rewardForHeight cfg h' = .ok r' → r' ≤ r
  total : ∑ height ∈ range (n.toNat + 1), rewardAt cfg height ≤
    2 * cfg.blocksPerEpoch.toNat * cfg.reward.toNat

/-- The rewards are as they should be up to the end of the 64th epoch, and from
there on there are none. -/
theorem bounded_iff (hb : cfg.blocksPerEpoch ≠ 0) :
    Bounded cfg n ↔ n.toNat / cfg.blocksPerEpoch.toNat < 64 := by
  constructor
  · intro h
    obtain ⟨r, hr, -⟩ := h.halved n UInt32.le_rfl
    exact ((rewardForHeight_iff hb).mp hr).1
  · intro hlt
    have hdef {h : UInt32} (hle : h ≤ n) : epochOf cfg h < 64 := (epochOf_mono hle).trans_lt hlt
    refine ⟨fun h hle ↦ ?_, fun h h' hle hle' r r' hr hr' ↦ ?_, ?_⟩
    · have hr : (UInt64.ofNat (cfg.reward.toNat / 2 ^ epochOf cfg h)).toNat =
          cfg.reward.toNat / 2 ^ epochOf cfg h := by
        refine UInt64.toNat_ofNat_of_lt' ?_
        exact (Nat.div_le_self ..).trans_lt cfg.reward.toNat_lt
      exact ⟨_, (rewardForHeight_iff hb).mpr ⟨hdef hle, hr⟩, hr⟩
    · rw [UInt64.le_iff_toNat_le, ((rewardForHeight_iff hb).mp hr).2,
        ((rewardForHeight_iff hb).mp hr').2]
      exact Nat.div_le_div_left (Nat.pow_le_pow_right Nat.two_pos (epochOf_mono hle))
        (Nat.two_pow_pos _)
    · have hpos : 0 < cfg.blocksPerEpoch.toNat :=
        Nat.pos_of_ne_zero fun h0 ↦ hb (UInt32.toNat_inj.mp h0)
      refine le_trans (sum_le_sum fun height hmem ↦ ?_) (sum_halving_le hpos _ (n.toNat + 1))
      have hheight : (UInt32.ofNat height).toNat = height := by
        have hn := n.toNat_lt
        rw [mem_range] at hmem
        exact Nat.mod_eq_of_lt (by omega)
      have := rewardAt_le hb height
      rwa [epochOf, hheight] at this

theorem bounded_sample : Bounded sampleConfig 100 := (bounded_iff (by decide)).mpr (by decide)

/-- With epochs of one block, block 64 has no reward. -/
theorem issuance_undefined :
    ¬ ∀ (cfg : Config) (n : UInt32), cfg.blocksPerEpoch ≠ 0 → Bounded cfg n := by
  intro h
  obtain ⟨r, hr, -⟩ := (h { sampleConfig with blocksPerEpoch := 1 } 64 (by decide)).halved 64
    UInt32.le_rfl
  exact absurd ((rewardForHeight_iff (by decide)).mp hr).1 (by decide)

end FheBlockchain.Chain.Issuance
