import FheBlockchain.Chain.Issuance
import FheBlockchain.Chain.Difficulty

namespace FheBlockchain.Chain.Retargeting

open Core.Transactions Core.Blocks Validation Accepted Difficulty Issuance
open Library.Results

variable {env : Env} {cfg : Config} {chain : List BlockHeader} {height : UInt32}

/-- Two chains have the same first and last timestamp in each of the epochs that
end before `height`. -/
def SameEpochs (cfg : Config) (height : UInt32) (chain chain' : List BlockHeader) : Prop :=
  ∀ i < epochOf cfg height,
    chain[i * cfg.blocksPerEpoch.toNat]?.map BlockHeader.timestamp =
      chain'[i * cfg.blocksPerEpoch.toNat]?.map BlockHeader.timestamp ∧
    chain[(i + 1) * cfg.blocksPerEpoch.toNat - 1]?.map BlockHeader.timestamp =
      chain'[(i + 1) * cfg.blocksPerEpoch.toNat - 1]?.map BlockHeader.timestamp

/-- What retargeting for `height` may read, and what the result depends on. -/
structure ReadsEpochs (env : Env) (cfg : Config) (chain : List BlockHeader) (height : UInt32) :
    Prop where
  inside : ∀ i < epochOf cfg height,
    (firstRead cfg i).toNat < chain.length ∧ (lastRead cfg i).toNat < chain.length
  epochs : ∀ i < epochOf cfg height,
    (firstRead cfg i).toNat = i * cfg.blocksPerEpoch.toNat ∧
      (lastRead cfg i).toNat = (i + 1) * cfg.blocksPerEpoch.toNat - 1
  result : ∃ d, getDifficultyForHeight env cfg chain height = .ok d ∧
    ∀ chain', height.toNat ≤ chain'.length → SameEpochs cfg height chain chain' →
      getDifficultyForHeight env cfg chain' height = .ok d

theorem getDifficultyForHeight_first (hb : cfg.blocksPerEpoch ≠ 0)
    (hlt : height < cfg.blocksPerEpoch) (chain : List BlockHeader) :
    getDifficultyForHeight env cfg chain height = .ok cfg.difficulty := by
  have hepoch : (height / cfg.blocksPerEpoch).toNat = 0 :=
    (toNat_epoch height).trans (Nat.div_eq_of_lt (UInt32.lt_iff_toNat_lt.mp hlt))
  rw [getDifficultyForHeight, getEpoch, if_neg hb]
  simp only [bind, Except.bind, hepoch]
  rfl

theorem firstRead_zero (hb : cfg.blocksPerEpoch ≠ 0) : (firstRead cfg 0).toNat ≠ 0 := by
  intro h
  have hneg : firstRead cfg 0 = -cfg.blocksPerEpoch := by
    rw [firstRead, show UInt32.ofNat 0 - 1 = -1 from rfl, ← UInt32.neg_eq_neg_one_mul]
  have hzero : firstRead cfg 0 = 0 := UInt32.toNat_inj.mp h
  exact UInt32.neg_ne_zero.mpr hb (hneg.symm.trans hzero)

/-- Retargeting reads what it should just when it reads nothing. -/
theorem readsEpochs_iff (hb : cfg.blocksPerEpoch ≠ 0) :
    ReadsEpochs env cfg chain height ↔ height < cfg.blocksPerEpoch := by
  have hpos : 0 < cfg.blocksPerEpoch.toNat :=
    Nat.pos_of_ne_zero fun h0 ↦ hb (UInt32.toNat_inj.mp h0)
  have hzero : height < cfg.blocksPerEpoch ↔ epochOf cfg height = 0 := by
    rw [UInt32.lt_iff_toNat_lt, epochOf, Nat.div_eq_zero_iff_lt hpos]
  constructor
  · intro h
    rw [hzero]
    by_contra hne
    have hfirst := (h.epochs 0 (Nat.pos_of_ne_zero hne)).1
    rw [Nat.zero_mul] at hfirst
    exact firstRead_zero hb hfirst
  · intro hlt
    have hnone {i : ℕ} (hi : i < epochOf cfg height) : False := by
      rw [hzero.mp hlt] at hi
      exact Nat.not_lt_zero i hi
    exact ⟨fun i hi ↦ (hnone hi).elim, fun i hi ↦ (hnone hi).elim,
      cfg.difficulty, getDifficultyForHeight_first hb hlt chain,
      fun chain' _ _ ↦ getDifficultyForHeight_first hb hlt chain'⟩

theorem readsEpochs_sample : ReadsEpochs sampleEnv sampleConfig [sampleGenesis.header] 1 :=
  (readsEpochs_iff (by decide)).mpr (by decide)

/-- On a chain of genesis alone, with epochs of one block, the difficulty of
block 1 is read at `-1`. -/
theorem retargeting_outside :
    ¬ ∀ (env : Env) (cfg : Config) (chain : List BlockHeader) (height : UInt32),
      1 ≤ chain.length → height.toNat ≤ chain.length → cfg.blocksPerEpoch ≠ 0 →
      ReadsEpochs env cfg chain height := by
  intro h
  have hreads := h sampleEnv { sampleConfig with blocksPerEpoch := 1 } [sampleGenesis.header] 1
    (by decide) (by decide) (by decide)
  exact absurd (hreads.inside 0 (by decide)).1 (by decide)

end FheBlockchain.Chain.Retargeting
