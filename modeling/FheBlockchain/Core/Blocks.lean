import FheBlockchain.Core.Transactions

namespace FheBlockchain.Core.Blocks

open Transactions

/-- A computation as the chain sees it: its unbound serialization, the
serialized output and proof it arrived with, and the depth of its tree. -/
structure Computation where
  body : Bytes
  output : Bytes
  proof : Bytes
  difficulty : UInt32
deriving DecidableEq, Repr

namespace Computation

def serialize (comp : Computation) (includeOutput : Bool) : Bytes :=
  if includeOutput then sizeBytes comp.output ++ comp.output ++ comp.body else comp.body

def hash (na : Sodium) (comp : Computation) : Bytes := na.hash comp.body

def getProof (comp : Computation) : Result Bytes :=
  if comp.proof = [] then .error (outOfRange "Proof not found for this computation.")
  else .ok comp.proof

end Computation

/-- `prevBlockHeader` is the hash of the header that `prev_block_header_`
points to, once a chain has linked it. -/
structure BlockHeader where
  prevBlockHeader : Option Bytes
  ownPrevHash : Bytes
  merkleRoot : Bytes
  timestamp : Int64
  difficulty : UInt32
  computations : List Computation
deriving DecidableEq, Repr

namespace BlockHeader

def arrivedPrevHash (header : BlockHeader) : Bytes :=
  if header.ownPrevHash = [] then zeros 32 else header.ownPrevHash

def prevHash (header : BlockHeader) : Bytes := header.prevBlockHeader.getD header.arrivedPrevHash

def serializeRest (header : BlockHeader) (includeProofs : Bool) : Bytes :=
  header.merkleRoot ++ uint64ToVectorBigEndian header.timestamp.toUInt64 ++
    uint32ToVectorBigEndian header.difficulty ++ sizeBytes header.computations ++
    (header.computations.map fun comp ↦
      sizeBytes (comp.serialize includeProofs) ++ comp.serialize includeProofs).flatten ++
    if includeProofs then
      (header.computations.map fun comp ↦ sizeBytes comp.proof ++ comp.proof).flatten
    else []

def serialize (header : BlockHeader) (includeProofs : Bool) : Bytes :=
  header.prevHash ++ header.serializeRest includeProofs

/-- The cached hash. It is taken when a block arrives or has been mined, before
any chain links its header. Proofs and outputs are taken to be there, as in every
header that has been validated; `computeHash` is the hash of any other one. -/
def hash (na : Sodium) (header : BlockHeader) : Bytes :=
  na.hash (header.arrivedPrevHash ++ header.serializeRest true)

/-- `BlockHeader::hash` where nothing is cached yet. The serialization throws at
a computation that has no proof. -/
def computeHash (na : Sodium) (header : BlockHeader) : Result Bytes := do
  let _ ← header.computations.mapM Computation.getProof
  return header.hash na

end BlockHeader

structure Block where
  header : BlockHeader
  transactions : List Transaction
deriving DecidableEq, Repr

def Block.hash (na : Sodium) (block : Block) : Bytes := block.header.hash na

def Block.computeHash (na : Sodium) (block : Block) : Result Bytes := block.header.computeHash na

def proofNotFound : Exception := .outOfRange "Proof not found for this computation."

def Proven (block : Block) : Prop := ∀ comp ∈ block.header.computations, comp.proof ≠ []

instance (block : Block) : Decidable (Proven block) :=
  inferInstanceAs (Decidable (∀ comp ∈ block.header.computations, comp.proof ≠ []))

theorem getProofs_cases (comps : List Computation) :
    (∀ comp ∈ comps, comp.proof ≠ []) ∧ (∃ proofs, comps.mapM Computation.getProof = .ok proofs) ∨
      (∃ comp ∈ comps, comp.proof = []) ∧
        comps.mapM Computation.getProof = .error (.throw proofNotFound) := by
  induction comps with
  | nil => exact .inl ⟨by simp, [], rfl⟩
  | cons comp comps ih =>
    simp only [List.mapM_cons]
    by_cases hcomp : comp.proof = []
    · exact .inr ⟨⟨comp, by simp, hcomp⟩, by rw [Computation.getProof, if_pos hcomp]; rfl⟩
    · rw [Computation.getProof, if_neg hcomp]
      rcases ih with ⟨hproofs, proofs, hok⟩ | ⟨⟨c, hc, hnil⟩, herr⟩
      · exact .inl ⟨List.forall_mem_cons.mpr ⟨hcomp, hproofs⟩, comp.proof :: proofs, by rw [hok]; rfl⟩
      · exact .inr ⟨⟨c, by simp [hc], hnil⟩, by rw [herr]; rfl⟩

theorem computeHash_proven (na : Sodium) {block : Block} (h : Proven block) :
    block.computeHash na = .ok (block.hash na) := by
  rcases getProofs_cases block.header.computations with ⟨-, proofs, hok⟩ | ⟨⟨c, hc, hnil⟩, -⟩
  · rw [Block.computeHash, BlockHeader.computeHash, hok]
    rfl
  · exact absurd hnil (h c hc)

theorem computeHash_unproven (na : Sodium) {block : Block} (h : ¬ Proven block) :
    block.computeHash na = .error (.throw proofNotFound) := by
  rcases getProofs_cases block.header.computations with ⟨hproofs, -⟩ | ⟨-, herr⟩
  · exact absurd hproofs h
  · rw [Block.computeHash, BlockHeader.computeHash, herr]
    rfl

theorem proven_of_computeHash {na : Sodium} {block : Block} {hash : Bytes}
    (h : block.computeHash na = .ok hash) : Proven block := by
  by_contra hp
  rw [computeHash_unproven na hp] at h
  cases h

namespace Merkle

def nextLevel (na : Sodium) : List Bytes → List Bytes
  | a :: b :: rest => na.hash (a ++ b) :: nextLevel na rest
  | [a] => [na.hash (a ++ a)]
  | [] => []

theorem length_nextLevel (na : Sodium) (level : List Bytes) :
    (nextLevel na level).length = (level.length + 1) / 2 := by
  fun_induction nextLevel na level with
  | case1 a b rest ih =>
    simp only [List.length_cons, ih]
    omega
  | case2 | case3 => simp

/-- Levels are halved until one hash is left; no block without transactions
gets this far. -/
def computeRoot (na : Sodium) : ℕ → List Bytes → Bytes
  | 0, level => level.headD []
  | fuel + 1, level =>
    if level.length = 1 then level.headD [] else computeRoot na fuel (nextLevel na level)

theorem computeRoot_fuel (na : Sodium) {fuel : ℕ} {level : List Bytes} (hne : level ≠ [])
    (h : level.length ≤ fuel + 1) :
    computeRoot na (fuel + 1) level = computeRoot na fuel level := by
  have hpos := List.length_pos_iff.mpr hne
  induction fuel generalizing level with
  | zero =>
    have h₁ : level.length = 1 := by omega
    simp [computeRoot, h₁]
  | succ fuel ih =>
    have hlen := length_nextLevel na level
    by_cases h₁ : level.length = 1
    · simp [computeRoot, h₁]
    · rw [computeRoot, if_neg h₁, ih (List.length_pos_iff.mp (by omega)) (by omega) (by omega)]
      exact (if_neg h₁).symm

end Merkle

/-- The block that `Block::Block` builds on `prev`; the fourth argument is the
clock. -/
def Block.mined (na : Sodium) (prev : BlockHeader) (difficulty : UInt32)
    (computations : List Computation) (now : Int64) (transactions : List Transaction) :
    Result Block := do
  let txids ← transactions.mapM (Transaction.txid na)
  return {
    header := {
      prevBlockHeader := some (prev.hash na)
      ownPrevHash := prev.hash na
      merkleRoot := Merkle.computeRoot na txids.length txids
      timestamp := now
      difficulty := difficulty
      computations := computations }
    transactions := transactions }

def Block.genesis (na : Sodium) (timestamp : Int64) (difficulty : UInt32) (pubkey : PublicKey)
    (amount : UInt64) : Result Block := do
  let txids ← [coinbaseTransaction pubkey amount 0].mapM (Transaction.txid na)
  return {
    header := {
      prevBlockHeader := none
      ownPrevHash := []
      merkleRoot := Merkle.computeRoot na txids.length txids
      timestamp := timestamp
      difficulty := difficulty
      computations := [] }
    transactions := [coinbaseTransaction pubkey amount 0] }

end FheBlockchain.Core.Blocks
