import FheBlockchain.Core.Blocks
import Mathlib.Data.Finmap

namespace FheBlockchain.Store.Chainstate

open Core.Transactions Core.Blocks
open Library.Execution (Exec)

structure UTXORecord where
  height : UInt32
  coinbase : Bool
  amount : UInt64
  pubkey : PublicKey
deriving DecidableEq, Repr

abbrev UTXOMap := Finmap fun _ : Bytes ↦ UTXORecord

/-- The unspent outputs, and the undo records of spent ones. -/
structure MemChainstate where
  storage : UTXOMap
  spentSet : UTXOMap
deriving DecidableEq

namespace MemChainstate

def empty : MemChainstate where
  storage := ∅
  spentSet := ∅

variable (cs : MemChainstate)

def record (key : Bytes) : Result UTXORecord :=
  match cs.storage.lookup key with
  | some rec => .ok rec
  | none => .error (outOfRange "unordered_map::at")

/-- The keys of the pairs of TXID and index that the code gives back, in the order
of its map. -/
def filterByPubkey (pubkey : PublicKey) : Finset Bytes :=
  cs.storage.keys.filter fun key ↦ (cs.storage.lookup key).any fun rec ↦ rec.pubkey = pubkey

def addUtxo (key : Bytes) (rec : UTXORecord) : MemChainstate × Bool :=
  if (cs.storage.lookup key).isSome then (cs, false)
  else ({ cs with storage := cs.storage.insert key rec }, true)

def addSpentUtxo (key : Bytes) (rec : UTXORecord) : MemChainstate :=
  if (cs.spentSet.lookup key).isSome then cs
  else { cs with spentSet := cs.spentSet.insert key rec }

def removeSpentUtxo (key : Bytes) : MemChainstate :=
  { cs with spentSet := cs.spentSet.erase key }

/-- The record is read before the erasure, whose iterator the code reads from
afterwards. -/
def removeUtxo (key : Bytes) (saveSpent : Bool) : MemChainstate × Bool :=
  match cs.storage.lookup key with
  | none => (cs, false)
  | some rec =>
    let cs := { cs with storage := cs.storage.erase key }
    (if saveSpent then cs.addSpentUtxo key rec else cs, true)

end MemChainstate

abbrev M := Exec Exception Undefined MemChainstate

def outputsOf (txid : Bytes) (height : UInt32) (isCb : Bool) :
    ℕ → List TransactionOutput → List (Bytes × UTXORecord)
  | _, [] => []
  | vout, outp :: outputs =>
    (txidVoutPairToKey txid (UInt64.ofNat vout),
      { height := height, coinbase := isCb, amount := outp.amount, pubkey := outp.publicKey }) ::
      outputsOf txid height isCb (vout + 1) outputs

/-- `TXID()` is called for each output, so not at all when there is none. -/
def txidForOutputs (na : Sodium) (tx : Transaction) : Result Bytes :=
  if tx.outputs = [] then .ok [] else tx.txid na

def addUtxos (outs : List (Bytes × UTXORecord)) (cs : MemChainstate) : MemChainstate :=
  outs.foldl (fun cs out ↦ (cs.addUtxo out.1 out.2).1) cs

def removeUtxos (keys : List Bytes) (cs : MemChainstate) : MemChainstate :=
  keys.foldl (fun cs key ↦ (cs.removeUtxo key false).1) cs

def spendInput (inp : TransactionInput) : M Unit := do
  let (cs, removed) := (← get).removeUtxo inp.key true
  set cs
  if removed then return () else throw (.abort .assertion)

def addTx (na : Sodium) (height : UInt32) (tx : Bool × Transaction) : M Unit := do
  let txid ← Exec.ofExcept (txidForOutputs na tx.2)
  modify (addUtxos (outputsOf txid height tx.1 0 tx.2.outputs))
  if tx.1 then return () else tx.2.inputs.forM spendInput

def unspendInput (inp : TransactionInput) : M Unit := do
  let cs ← get
  match cs.spentSet.lookup inp.key with
  | none => throw (.abort .assertion)
  | some undoRec => set ((cs.addUtxo inp.key undoRec).1.removeSpentUtxo inp.key)

def rewindTx (na : Sodium) (tx : Bool × Transaction) : M Unit := do
  let txid ← Exec.ofExcept (txidForOutputs na tx.2)
  modify (removeUtxos ((outputsOf txid 0 tx.1 0 tx.2.outputs).map Prod.fst))
  if tx.1 then return () else tx.2.inputs.forM unspendInput

def flagged : List Transaction → List (Bool × Transaction)
  | [] => []
  | cb :: txs => (true, cb) :: txs.map (false, ·)

def addBlock (na : Sodium) (block : Block) (height : UInt32) : M Unit :=
  (flagged block.transactions).forM (addTx na height)

def rewindBlock (na : Sodium) (block : Block) : M Unit :=
  (flagged block.transactions).forM (rewindTx na)

end FheBlockchain.Store.Chainstate
