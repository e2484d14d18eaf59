import FheBlockchain.Core.Transactions

namespace FheBlockchain.Core.Signing

open Transactions
open Library.Execution (Exec)

/-- An input as it lies in memory, with the amount that `set_amount` gave it. -/
structure InputObject extends TransactionInput where
  amount : UInt64
deriving DecidableEq, Repr

abbrev Memory := List InputObject

/-- A transaction, which shares its inputs and copies its outputs. -/
structure SharedTransaction where
  inputs : List ℕ
  outputs : List TransactionOutput
deriving DecidableEq, Repr

structure Signer extends Sodium where
  signDetached : (message : Bytes) → (privkey : Vector UInt8 64) → Vector UInt8 64

abbrev M := Exec Exception Undefined Memory

def deref (a : ℕ) : M InputObject := do
  match (← get)[a]? with
  | some obj => return obj
  | none => throw (.abort .nullPointer)

def edit (a : ℕ) (f : TransactionInput → TransactionInput) (mem : Memory) : Memory :=
  mem.modify a fun obj ↦ { obj with toTransactionInput := f obj.toTransactionInput }

def update (a : ℕ) (f : TransactionInput → TransactionInput) : M Unit := modify (edit a f)

/-- `TransactionInput::serialize` leaves zeros in the place of a missing
signature. -/
def fill (inp : TransactionInput) : TransactionInput :=
  if inp.sig = [] then { inp with sig := zeros inp.sigSize.toNat } else inp

def serializeInput (a : ℕ) : M Bytes := do
  let res ← Exec.ofExcept (← deref a).toTransactionInput.serialize
  update a fill
  return res

namespace SharedTransaction

/-- The constructor that pays `amount` to another key and gives the change back. -/
def construct (inputs : List ℕ) (selfPubkey recPubkey : PublicKey) (amount fee : UInt64) :
    M SharedTransaction := do
  let objs ← inputs.mapM deref
  let total := Transaction.total (objs.map InputObject.amount)
  if total < amount + fee then throw (logicError "Insufficient inputs provided.")
  let mainOutput : TransactionOutput := ⟨amount, recPubkey⟩
  if total > amount + fee then
    return ⟨inputs, [mainOutput, ⟨total - amount - fee, selfPubkey⟩]⟩
  return ⟨inputs, [mainOutput]⟩

def serialize (tx : SharedTransaction) : M Bytes := do
  let inputs ← tx.inputs.mapM serializeInput
  return sizeBytes tx.inputs ++ inputs.flatten ++ sizeBytes tx.outputs ++
    (tx.outputs.map TransactionOutput.serialize).flatten

/-- The part that `sign` and `validate_transaction` have in common: the public
key takes the place of one signature, then all is written out. -/
def showKey (tx : SharedTransaction) (a : ℕ) (pubkey : PublicKey) : M Bytes := do
  update a fun inp ↦ { inp with sigSize := signPublicKeyBytes }
  update a fun inp ↦ inp.setSignature pubkey.toList true
  tx.serialize

def checkUnsigned (a : ℕ) : M Unit := do
  if (← deref a).isSigned then throw (invalidArgument "Cannot sign already signed inputs.")

def signInput (na : Signer) (tx : SharedTransaction) (pubkey : PublicKey)
    (privkey : Vector UInt8 64) (a : ℕ) : M (Vector UInt8 64) := do
  let msg ← tx.showKey a pubkey
  update a TransactionInput.clearSignature
  return na.signDetached msg privkey

def sign (na : Signer) (tx : SharedTransaction) (pubkey : PublicKey) (privkey : Vector UInt8 64) :
    M Unit := do
  tx.inputs.forM checkUnsigned
  let sigs ← tx.inputs.mapM (signInput na tx pubkey privkey)
  (tx.inputs.zip sigs).forM fun p ↦ update p.1 fun inp ↦ inp.setSignature p.2.toList false

def copyInput (a : ℕ) : M ℕ := do
  let obj ← deref a
  modifyGet fun mem ↦ (mem.length, mem ++ [obj])

def copy (tx : SharedTransaction) : M SharedTransaction := do
  let inputs ← tx.inputs.mapM copyInput
  return { tx with inputs := inputs }

/-- The loop of `validate_transaction` over the inputs of the copy, each along
with the input it was copied from. -/
def verifyCopies (na : Sodium) (copyTx : SharedTransaction) (pubkeys : List PublicKey) :
    List (ℕ × ℕ) → ℕ → M Bool
  | [], _ => return true
  | (a, own) :: rest, idx => do
    match pubkeys[idx]? with
    | none => throw (.abort .indexOutOfRange)
    | some pubkey =>
      let msg ← copyTx.showKey a pubkey
      if !na.signVerifyDetached (← deref own).sig msg pubkey then return false
      update a TransactionInput.clearSignature
      verifyCopies na copyTx pubkeys rest (idx + 1)

def validateTransaction (na : Sodium) (tx : SharedTransaction) (pubkeys : List PublicKey) :
    M Bool := do
  let objs ← tx.inputs.mapM deref
  if !objs.all (·.isSigned) then return false
  if Transaction.total (objs.map InputObject.amount) <
      Transaction.total (tx.outputs.map TransactionOutput.amount) then return false
  let copyTx ← tx.copy
  copyTx.inputs.forM fun a ↦ update a TransactionInput.clearSignature
  verifyCopies na copyTx pubkeys (copyTx.inputs.zip tx.inputs) 0

end SharedTransaction

end FheBlockchain.Core.Signing
