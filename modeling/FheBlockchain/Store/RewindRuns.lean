import FheBlockchain.Core.Amounts
import FheBlockchain.Store.ChainstateKeys

namespace FheBlockchain.Store.RewindRuns

open Core.Transactions Core.Blocks Chainstate ChainstateEffects ChainstateRewind ChainstateKeys
open Library.Execution

variable (na : Sodium)

def createdByBlock (block : Block) : List Bytes :=
  (flagged block.transactions).flatMap (createdByTx na)

def consumedByBlock (block : Block) : List Bytes :=
  (flagged block.transactions).flatMap (consumedByTx na)

/-- A block at its turn: its output keys can be computed, its inputs are
distinct and there, and its output keys are new. -/
structure Admissible (cs : MemChainstate) (block : Block) : Prop where
  keyed : ∀ tx ∈ block.transactions, (txidForOutputs na tx).isOk
  distinct : (consumedByBlock na block).Nodup
  found : ∀ k ∈ consumedByBlock na block, (cs.storage.lookup k).isSome
  unshared : (createdByBlock na block).Nodup
  new : ∀ k ∈ createdByBlock na block,
    cs.storage.lookup k = none ∧ cs.spentSet.lookup k = none

instance (cs : MemChainstate) (block : Block) : Decidable (Admissible na cs block) :=
  decidable_of_iff (_ ∧ _ ∧ _ ∧ _ ∧ _)
    ⟨fun ⟨a, b, c, d, e⟩ ↦ ⟨a, b, c, d, e⟩, fun ⟨a, b, c, d, e⟩ ↦ ⟨a, b, c, d, e⟩⟩

def AdmissibleRun : MemChainstate → List (Block × UInt32) → Prop
  | _, [] => True
  | cs, (block, height) :: rest => Admissible na cs block ∧
    ∀ cs', addBlock na block height cs = .ok () cs' → AdmissibleRun cs' rest

instance decidableAdmissibleRun :
    ∀ (cs : MemChainstate) (blocks : List (Block × UInt32)), Decidable (AdmissibleRun na cs blocks)
  | _, [] => inferInstanceAs (Decidable True)
  | cs, (block, height) :: rest =>
    have : DecidablePred fun cs' ↦ AdmissibleRun na cs' rest :=
      fun cs' ↦ decidableAdmissibleRun cs' rest
    inferInstanceAs (Decidable (Admissible na cs block ∧
      ∀ cs', addBlock na block height cs = .ok () cs' → AdmissibleRun na cs' rest))

def addBlocks (blocks : List (Block × UInt32)) : M Unit :=
  blocks.forM fun b ↦ addBlock na b.1 b.2

/-- The blocks are given in the order in which they were added. -/
def rewindBlocks (blocks : List Block) : M Unit := blocks.reverse.forM (rewindBlock na)

def Separate (cs : MemChainstate) : Prop :=
  ∀ k, cs.storage.lookup k = none ∨ cs.spentSet.lookup k = none

variable {na} {cs : MemChainstate} {block : Block} {height : UInt32}

theorem Admissible.txidForOutputs_ok (h : Admissible na cs block) {tx : Transaction}
    (htx : tx ∈ block.transactions) : ∃ txid, txidForOutputs na tx = .ok txid := by
  have hok := h.keyed tx htx
  cases hr : txidForOutputs na tx with
  | ok txid => exact ⟨txid, rfl⟩
  | error e => simp [hr, Except.isOk, Except.toBool] at hok

theorem Admissible.fresh (h : Admissible na cs block) (hsep : Separate cs) (height : UInt32) :
    Fresh cs (blockEffects na block height) ∧
      (createdKeys (blockEffects na block height)).Nodup := by
  have hconsumed := consumedBy_blockEffects na block height
  have hcreated := createdKeys_blockEffects na block height
  have hfound {k : Bytes} (hk : k ∈ consumedBy (blockEffects na block height)) :
      ∃ rec, cs.storage.lookup k = some rec := by
    rw [hconsumed] at hk
    exact Option.isSome_iff_exists.mp (h.found k hk)
  refine ⟨⟨⟨?_, fun k hk ↦ hfound hk⟩, fun k hk ↦ ?_, fun k hk ↦ ?_⟩, ?_⟩
  · rw [hconsumed]
    exact h.distinct
  · rw [hcreated] at hk
    exact (h.new k hk).1
  · obtain ⟨rec, hrec⟩ := hfound hk
    refine (hsep k).resolve_left ?_
    simp [hrec]
  · rw [hcreated]
    exact h.unshared

theorem Admissible.separate (h : Admissible na cs block) (hsep : Separate cs)
    (height : UInt32) : Separate (applyAll (blockEffects na block height) cs) := by
  obtain ⟨hfresh, hnd⟩ := h.fresh hsep height
  have happ := applyAll_applied hfresh hnd
  intro k
  rw [happ.spent]
  by_cases hc : k ∈ createdKeys (blockEffects na block height)
  · rw [if_neg fun hk ↦ hfresh.notMem hk hc]
    rw [createdKeys_blockEffects] at hc
    exact .inr (h.new k hc).2
  · rw [happ.unspent k hc]
    split_ifs with hk
    · exact .inl rfl
    · exact hsep k

theorem Admissible.addBlock_run (h : Admissible na cs block) (hsep : Separate cs)
    (height : UInt32) : ∃ cs', addBlock na block height cs = .ok () cs' ∧
      rewindBlock na block cs' = .ok () cs ∧ Separate cs' := by
  obtain ⟨hfresh, hnd⟩ := h.fresh hsep height
  obtain ⟨hrew, hundo⟩ := undoAll_applyAll hfresh hnd
  refine ⟨_, ChainstateEffects.addBlock_run na (fun _ ↦ h.txidForOutputs_ok) hfresh.spendable, ?_,
    h.separate hsep height⟩
  rw [rewindBlock_run na (fun _ ↦ h.txidForOutputs_ok) hrew, hundo]

theorem rewindBlocks_cons (blocks : List Block) {cs' cs'' : MemChainstate}
    (hrest : rewindBlocks na blocks cs = .ok () cs')
    (hlast : rewindBlock na block cs' = .ok () cs'') :
    rewindBlocks na (block :: blocks) cs = .ok () cs'' := by
  rw [rewindBlocks, List.reverse_cons, forM_append _ hrest, forM_cons, hlast]
  rfl

/-- Adding admissible blocks, whatever their heights, and rewinding them from
the last to the first gives back both maps as they were. -/
theorem rewindBlocks_addBlocks {blocks : List (Block × UInt32)} (hsep : Separate cs)
    (h : AdmissibleRun na cs blocks) : ∃ cs', addBlocks na blocks cs = .ok () cs' ∧
      rewindBlocks na (blocks.map Prod.fst) cs' = .ok () cs := by
  induction blocks generalizing cs with
  | nil => exact ⟨cs, rfl, rfl⟩
  | cons b blocks ih =>
    obtain ⟨block, height⟩ := b
    obtain ⟨cs₁, hadd, hrewind, hsep₁⟩ := h.1.addBlock_run hsep height
    obtain ⟨cs', hrest, hback⟩ := ih hsep₁ (h.2 cs₁ hadd)
    refine ⟨cs', ?_, rewindBlocks_cons _ hback hrewind⟩
    rw [addBlocks, forM_cons, hadd]
    exact hrest

section Sample

open Core.Amounts (sampleSodium spending)

def sampleCoinbase (height : UInt32) : Transaction :=
  coinbaseTransaction (Vector.replicate 32 0) 50 height

def holding (height : UInt32) (txs : List Transaction) : Block where
  header := ⟨none, [], [], 0, 1, []⟩
  transactions := sampleCoinbase height :: txs

/-- The second block spends the coinbase of the first, the third one of the two
outputs that it is split into. -/
def spendingRun : List (Block × UInt32) :=
  let split := spending sampleSodium (sampleCoinbase 0) [20, 30]
  [(holding 0 [], 0), (holding 1 [split], 1), (holding 2 [spending sampleSodium split [20]], 2)]

theorem spendingRun_rewound : ∃ cs', addBlocks sampleSodium spendingRun .empty = .ok () cs' ∧
    rewindBlocks sampleSodium (spendingRun.map Prod.fst) cs' = .ok () .empty :=
  rewindBlocks_addBlocks (fun _ ↦ .inl (by simp [MemChainstate.empty])) (by decide +kernel)

end Sample

end FheBlockchain.Store.RewindRuns
