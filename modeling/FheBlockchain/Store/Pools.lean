import FheBlockchain.Store.Chainstate

namespace FheBlockchain.Store.Pools

open Core.Transactions Core.Blocks
open Library.Execution (Exec)

abbrev MemBlockStore := Finmap fun _ : Bytes ↦ Block

namespace MemBlockStore

variable (store : MemBlockStore)

def storeBlock (hash : Bytes) (block : Block) : MemBlockStore × Bool :=
  if (store.lookup hash).isSome then (store, false) else (store.insert hash block, true)

def getBlock (hash : Bytes) : Result Block :=
  match store.lookup hash with
  | some block => .ok block
  | none => .error (outOfRange "unordered_map::at")

end MemBlockStore

/-- A transaction together with the amounts that `set_amount` left in its
inputs. -/
structure PooledTx where
  tx : Transaction
  inAmounts : List UInt64
deriving DecidableEq, Repr

def PooledTx.fee (p : PooledTx) : Result UInt64 := p.tx.fee p.inAmounts

/-- `utxoRef` lists the pooled transactions under the hashes of their outputs;
`txSet` holds fee and TXID in one string, the largest first. -/
structure MemPool where
  txStorage : Finmap fun _ : Bytes ↦ PooledTx
  txSet : List Bytes
  utxoRef : Finmap fun _ : Bytes ↦ List PooledTx
deriving DecidableEq

namespace MemPool

def empty : MemPool where
  txStorage := ∅
  txSet := []
  utxoRef := ∅

def concatTxidFeePair (txid : Bytes) (fee : UInt64) : Bytes := uint64ToVectorBigEndian fee ++ txid

def txidFromPair (pair : Bytes) : Bytes := pair.drop 8

/-- Insertion into a `std::set` whose order is `>`. -/
def setInsert (x : Bytes) : List Bytes → List Bytes
  | [] => [x]
  | y :: ys => if x = y then y :: ys else if y < x then x :: y :: ys else y :: setInsert x ys

def outputHash (na : Sodium) (outp : TransactionOutput) : Bytes := na.hash outp.serialize

abbrev M := Exec Exception Undefined MemPool

def refer (p : PooledTx) (utxoKey : Bytes) (pool : MemPool) : MemPool :=
  { pool with utxoRef := pool.utxoRef.insert utxoKey ((pool.utxoRef.lookup utxoKey).getD [] ++ [p]) }

def addValidTx (na : Sodium) (p : PooledTx) : M Bool := do
  let txid ← Exec.ofExcept (p.tx.txid na)
  let pool ← get
  if (pool.txStorage.lookup txid).isSome then return false
  set { pool with txStorage := pool.txStorage.insert txid p }
  let fee ← Exec.ofExcept p.fee
  modify fun pool ↦ { pool with txSet := setInsert (concatTxidFeePair txid fee) pool.txSet }
  modify fun pool ↦ p.tx.outputs.foldl (fun pool outp ↦ refer p (outputHash na outp) pool) pool
  return true

def evict (na : Sodium) (p : PooledTx) : M Unit := do
  let txid ← Exec.ofExcept (p.tx.txid na)
  modify fun pool ↦ { pool with txStorage := pool.txStorage.erase txid }
  let fee ← Exec.ofExcept p.fee
  modify fun pool ↦ { pool with txSet := pool.txSet.erase (concatTxidFeePair txid fee) }

/-- Evicts every transaction listed under an output. The one being spent is
listed too, and evicting it again changes nothing. -/
def spendOutput (na : Sodium) (outp : TransactionOutput) : M Unit := do
  match (← get).utxoRef.lookup (outputHash na outp) with
  | none => throw (.abort .assertion)
  | some others =>
    others.forM (evict na)
    modify fun pool ↦ { pool with utxoRef := pool.utxoRef.erase (outputHash na outp) }

def spendTx (na : Sodium) (p : PooledTx) : M Bool := do
  let txid ← Exec.ofExcept (p.tx.txid na)
  if ((← get).txStorage.lookup txid).isSome then
    evict na p
    p.tx.outputs.forM (spendOutput na)
    return true
  else return false

def unlist (na : Sodium) (txid : Bytes) : List PooledTx → Result (List PooledTx)
  | [] => .error (.abort .assertion)
  | q :: qs => do
    if (← q.tx.txid na) = txid then return qs
    return q :: (← unlist na txid qs)

/-- A list with one entry goes without a look at the entry. -/
def unlistOutput (na : Sodium) (txid : Bytes) (outp : TransactionOutput) : M Unit := do
  match (← get).utxoRef.lookup (outputHash na outp) with
  | none => throw (.abort .assertion)
  | some [_] => modify fun pool ↦ { pool with utxoRef := pool.utxoRef.erase (outputHash na outp) }
  | some record =>
    let record ← Exec.ofExcept (unlist na txid record)
    modify fun pool ↦ { pool with utxoRef := pool.utxoRef.insert (outputHash na outp) record }

def removeTx (na : Sodium) (p : PooledTx) : M Bool := do
  let txid ← Exec.ofExcept (p.tx.txid na)
  if ((← get).txStorage.lookup txid).isSome then
    evict na p
    p.tx.outputs.forM (unlistOutput na txid)
    return true
  else return false

/-- Stops at the first transaction that is pooled already. -/
def addTxs (na : Sodium) : List PooledTx → M Bool
  | [] => return true
  | p :: ps => do
    if ← addValidTx na p then addTxs na ps else return false

def addBlock (na : Sodium) (txs : List PooledTx) : M Bool := addTxs na txs.tail

/-- The coinbase comes first and is skipped. -/
def spendBlock (na : Sodium) (txs : List PooledTx) : M Unit :=
  txs.tail.forM fun p ↦ do
    let _ ← spendTx na p

def getTop (pool : MemPool) (limit : ℕ) : Result (List PooledTx) :=
  (pool.txSet.take limit).mapM fun pair ↦
    match pool.txStorage.lookup (txidFromPair pair) with
    | some p => .ok p
    | none => .error (outOfRange "unordered_map::at")

end MemPool

abbrev MemCompStore := Finmap fun _ : Bytes ↦ Computation

namespace MemCompStore

variable (na : Sodium) (store : MemCompStore)

def storeComputation (comp : Computation) : MemCompStore × Bool :=
  if (store.lookup (comp.hash na)).isSome then (store, false)
  else (store.insert (comp.hash na) comp, true)

def spendBlock (block : Block) : MemCompStore :=
  block.header.computations.foldl (fun store comp ↦ store.erase (comp.hash na)) store

/-- Picks computations in the order in which the map happens to list them until
their difficulties, summed up in 32 bits, reach the target. -/
def collectFrom (target : UInt32) : UInt32 → List Computation → List Computation → List Computation
  | _, _, [] => []
  | total, res, comp :: rest =>
    if target ≤ total + comp.difficulty then res ++ [comp]
    else collectFrom target (total + comp.difficulty) (res ++ [comp]) rest

def collectComputations (order : List Computation) (target : UInt32) : List Computation :=
  collectFrom target 0 [] order

end MemCompStore

end FheBlockchain.Store.Pools
