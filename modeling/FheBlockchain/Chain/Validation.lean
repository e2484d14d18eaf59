import FheBlockchain.Store.Pools

namespace FheBlockchain.Chain.Validation

open Core.Transactions Core.Blocks Store.Chainstate Store.Pools

structure Config where
  reward : UInt64
  difficulty : UInt32
  publicKey : PublicKey
  timestamp : Int64
  hash : Bytes
  secondsPerBlock : Int64
  blocksPerEpoch : UInt32
  defaultTxPerBlock : ℕ
deriving DecidableEq, Repr

def cannotAttach : Exception := .invalidArgument "Cannot attach block to chain"

def blockNotFound : Exception := .outOfRange "unordered_map::at"

/-- What the chain takes from outside: libsodium, `bind_to_data` followed by
`verify_proof`, and the clamped and rounded change of difficulty, which is computed
in floating point from the expected and the actual duration. The verdict is one of
the computation that the header holds and of the data: that a computer keeps its
bound ciphertexts, so that a second check of one object can come out otherwise, is
left to `Computer.Binding`. No exception of the two is one of the chain's own. -/
structure Env extends Sodium where
  verifyProof : (data : Bytes) → Computation → Result Bool
  verifyProof_throw : ∀ data comp e, verifyProof data comp = .error (.throw e) →
    e ≠ cannotAttach ∧ e ≠ blockNotFound
  retarget : (expected actual : Int64) → UInt32 → UInt32

variable (env : Env) (cfg : Config)

def getEpoch (height : UInt32) : Result UInt32 :=
  if cfg.blocksPerEpoch = 0 then .error (.abort .divideByZero)
  else .ok (height / cfg.blocksPerEpoch)

/-- Shifting 64 bits by 64 places or more is not defined. -/
def rewardForHeight (height : UInt32) : Result UInt64 := do
  let epoch ← getEpoch cfg height
  if epoch < 64 then return cfg.reward >>> epoch.toUInt64
  else .error (.abort .shiftOutOfRange)

def currentHeight (chain : List BlockHeader) : UInt32 := UInt32.ofNat chain.length - 1

/-- `header_chain_.at(idx)`, which throws where `headerAt` is not defined. -/
def getHeader (chain : List BlockHeader) (idx : UInt32) : Result BlockHeader :=
  match chain[idx.toNat]? with
  | some header => .ok header
  | none => .error (outOfRange "vector::_M_range_check")

/-- `header_chain_[idx]` for an index computed in 32 bits. -/
def headerAt (chain : List BlockHeader) (idx : UInt32) : Result BlockHeader :=
  match chain[idx.toNat]? with
  | some header => .ok header
  | none => .error (.abort .indexOutOfRange)

/-- One round of the loop over epochs. Its indices are those of the epoch before
`i`, so the first round reads at `-bpe` and at `-1`. -/
def adjustDifficulty (chain : List BlockHeader) (difficulty i : UInt32) : Result UInt32 := do
  let first ← headerAt chain ((i - 1) * cfg.blocksPerEpoch)
  let last ← headerAt chain (i * cfg.blocksPerEpoch - 1)
  return env.retarget (cfg.secondsPerBlock * cfg.blocksPerEpoch.toUInt64.toInt64)
    (last.timestamp - first.timestamp) difficulty

def getDifficultyForHeight (chain : List BlockHeader) (height : UInt32) : Result UInt32 := do
  let epochs ← getEpoch cfg height
  (List.range epochs.toNat).foldlM
    (fun difficulty i ↦ adjustDifficulty env cfg chain difficulty (UInt32.ofNat i)) cfg.difficulty

def bindingData (header : BlockHeader) (idx : ℕ) : Bytes :=
  header.serialize false ++ uint64ToVectorBigEndian (UInt64.ofNat idx)

def verifyComputations (header : BlockHeader) : ℕ → List Computation → Result Bool
  | _, [] => .ok true
  | idx, comp :: comps => do
    let _ ← comp.getProof
    if ← env.verifyProof (bindingData header idx) comp then
      verifyComputations header (idx + 1) comps
    else return false

def totalDepth (comps : List Computation) : UInt32 :=
  comps.foldl (fun depth comp ↦ depth + comp.difficulty) 0

def validateHeaderUnsafe (chain : List BlockHeader) (header : BlockHeader) (height : UInt32) :
    Result Bool := do
  let diffForHeight ← getDifficultyForHeight env cfg chain height
  if diffForHeight ≠ header.difficulty then return false
  if header.computations = [] then return false
  if totalDepth header.computations < diffForHeight then return false
  verifyComputations env header 0 header.computations

/-- Loop state of `validate_block`: the outputs spent so far, the fees, the
TXIDs, and the transactions with the amounts of their inputs. -/
structure BlockCheck where
  tempUtxoRef : List Bytes
  allowedFee : UInt64
  hashes : List Bytes
  txs : List PooledTx

def lookupInputs (cs : MemChainstate) :
    List Bytes → List TransactionInput → Option (List Bytes × List UTXORecord)
  | seen, [] => some (seen, [])
  | seen, inp :: inputs =>
    if inp.key ∈ seen then none
    else match cs.storage.lookup inp.key with
      | none => none
      | some rec => (lookupInputs cs (inp.key :: seen) inputs).map fun r ↦ (r.1, rec :: r.2)

def checkTx (cs : MemChainstate) (check : BlockCheck) (tx : Transaction) :
    Result (Option BlockCheck) :=
  match lookupInputs cs check.tempUtxoRef tx.inputs with
  | none => .ok none
  | some (seen, recs) => do
    let amounts := recs.map UTXORecord.amount
    if !(← tx.validateTransaction env.toSodium (recs.map UTXORecord.pubkey) amounts) then
      return none
    let fee ← tx.fee amounts
    let txid ← tx.txid env.toSodium
    return some {
      tempUtxoRef := seen
      allowedFee := check.allowedFee + fee
      hashes := check.hashes ++ [txid]
      txs := check.txs ++ [{ tx := tx, inAmounts := amounts }] }

def checkTxs (cs : MemChainstate) : BlockCheck → List Transaction → Result (Option BlockCheck)
  | check, [] => .ok (some check)
  | check, tx :: txs => do
    match ← checkTx env cs check tx with
    | none => return none
    | some check => checkTxs cs check txs

def firstOutput (tx : Transaction) : Result TransactionOutput :=
  match tx.outputs with
  | [] => .error (.abort .indexOutOfRange)
  | outp :: _ => .ok outp

/-- `none` is the verdict `false`; on `true` the transactions come back with the
amounts that validation has set in their inputs. -/
def validateBlock (chain : List BlockHeader) (cs : MemChainstate) (block : Block)
    (height : UInt32) : Result (Option (List PooledTx)) :=
  match block.transactions with
  | [] => .ok none
  | cb :: txs => do
    let cbid ← cb.txid env.toSodium
    let check := { tempUtxoRef := [], allowedFee := 0, hashes := [cbid], txs := [⟨cb, []⟩] }
    match ← checkTxs env cs check txs with
    | none => return none
    | some check =>
      let reward ← rewardForHeight cfg height
      let outp ← firstOutput cb
      if outp.amount + check.allowedFee < reward then return none
      if Merkle.computeRoot env.toSodium check.hashes.length check.hashes ≠
          block.header.merkleRoot then
        return none
      if ← validateHeaderUnsafe env cfg chain block.header height then return some check.txs
      else return none

end FheBlockchain.Chain.Validation
