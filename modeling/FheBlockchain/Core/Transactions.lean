import FheBlockchain.Library.BigEndian
import FheBlockchain.Library.Execution
import Mathlib.Data.List.Basic

namespace FheBlockchain.Core.Transactions

open Library.BigEndian
open Library.Execution (Fault)

abbrev Bytes := List UInt8

instance decidableMem (b : Bytes) (bs : List Bytes) : Decidable (b ∈ bs) := inferInstance

/-- The exceptions that the modelled functions throw, with their texts. -/
inductive Exception
  | invalidArgument (what : String)
  | outOfRange (what : String)
  | runtimeError (what : String)
  | logicError (what : String)
deriving DecidableEq, Repr

inductive Undefined
  | indexOutOfRange
  | bufferOverflow
  | divideByZero
  | shiftOutOfRange
  | assertion
  | nullPointer
  | stackOverflow
deriving DecidableEq, Repr

abbrev Failure := Fault Exception Undefined

abbrev Result := Except Failure

def invalidArgument (what : String) : Failure := .throw (.invalidArgument what)

def outOfRange (what : String) : Failure := .throw (.outOfRange what)

def runtimeError (what : String) : Failure := .throw (.runtimeError what)

def logicError (what : String) : Failure := .throw (.logicError what)

def uint32ToVectorBigEndian (num : UInt32) : Bytes := bigEndian 4 num.toNat

def uint64ToVectorBigEndian (num : UInt64) : Bytes := bigEndian 8 num.toNat

/-- `size()` of a container, as the 64-bit value that is written out. -/
def sizeBytes {α : Type} (xs : List α) : Bytes := bigEndian 8 xs.length

def txidVoutPairToKey (txid : Bytes) (vout : UInt64) : Bytes :=
  txid ++ uint64ToVectorBigEndian vout

def copyTo (buffer : Bytes) (offset : ℕ) (src : Bytes) : Result Bytes :=
  if offset + src.length ≤ buffer.length then
    .ok (buffer.take offset ++ src ++ buffer.drop (offset + src.length))
  else .error (.abort .bufferOverflow)

def zeros (n : ℕ) : Bytes := List.replicate n 0

/-- `crypto_sign_BYTES`. -/
def signBytes : UInt32 := 64

/-- `crypto_sign_PUBLICKEYBYTES`. -/
def signPublicKeyBytes : UInt32 := 32

structure TransactionInput where
  txid : Bytes
  vout : UInt64
  sig : Bytes
  isSigned : Bool
  sigSize : UInt32
deriving DecidableEq, Repr

namespace TransactionInput

def unsigned (txid : Bytes) (vout : UInt64) : TransactionInput where
  txid := txid
  vout := vout
  sig := []
  isSigned := false
  sigSize := signBytes

def key (inp : TransactionInput) : Bytes := txidVoutPairToKey inp.txid inp.vout

/-- 32 bytes of TXID, then vout, signature size and signature; the fields are
copied into one buffer in this order, each over what a longer one left there. -/
def serialize (inp : TransactionInput) : Result Bytes := do
  let res ← copyTo (zeros (44 + inp.sigSize.toNat)) 0 inp.txid
  let res ← copyTo res 32 (uint64ToVectorBigEndian inp.vout)
  let res ← copyTo res 40 (uint32ToVectorBigEndian inp.sigSize)
  copyTo res 44 (if inp.sig = [] then zeros inp.sigSize.toNat else inp.sig)

def setSignature (inp : TransactionInput) (sig : Bytes) (isTemp : Bool) : TransactionInput :=
  { inp with sig := sig.take inp.sigSize.toNat, isSigned := inp.isSigned || !isTemp }

def clearSignature (inp : TransactionInput) : TransactionInput :=
  { inp with sig := [], isSigned := false, sigSize := signBytes }

end TransactionInput

abbrev PublicKey := Vector UInt8 32

structure TransactionOutput where
  amount : UInt64
  publicKey : PublicKey
deriving DecidableEq, Repr

namespace TransactionOutput

def serialize (outp : TransactionOutput) : Bytes :=
  uint64ToVectorBigEndian outp.amount ++ outp.publicKey.toList

end TransactionOutput

structure Transaction where
  inputs : List TransactionInput
  outputs : List TransactionOutput
deriving DecidableEq, Repr

/-- What the code takes from libsodium: the 32-byte hash and the detached
signatures, as functions of the bytes they are given. -/
structure Sodium where
  generichash : Bytes → Vector UInt8 32
  signVerifyDetached : (sig message : Bytes) → PublicKey → Bool

namespace Sodium

def hash (na : Sodium) (data : Bytes) : Bytes := (na.generichash data).toList

@[simp]
theorem length_hash (na : Sodium) (data : Bytes) : (na.hash data).length = 32 := by
  simp [hash]

end Sodium

namespace Transaction

variable (na : Sodium)

def serialize (tx : Transaction) : Result Bytes := do
  let inputs ← tx.inputs.mapM TransactionInput.serialize
  return sizeBytes tx.inputs ++ inputs.flatten ++ sizeBytes tx.outputs ++
    (tx.outputs.map TransactionOutput.serialize).flatten

def txid (tx : Transaction) : Result Bytes :=
  if tx.inputs.all TransactionInput.isSigned then do return na.hash (← tx.serialize)
  else .error (invalidArgument "Cannot compute TXID with unsigned inputs.")

/-- Sums of amounts wrap around like `uint64_t`. -/
def total (amounts : List UInt64) : UInt64 := amounts.foldl (· + ·) 0

def outAmounts (tx : Transaction) : List UInt64 := tx.outputs.map TransactionOutput.amount

/-- The amounts of the inputs are not part of a transaction; `set_amount` has
copied them from the referenced outputs. -/
def fee (tx : Transaction) (inAmounts : List UInt64) : Result UInt64 :=
  if total inAmounts < total tx.outAmounts then
    .error (invalidArgument "Insufficient inputs provided.")
  else .ok (total inAmounts - total tx.outAmounts)

/-- The bytes that the signature of input `idx` covers: every signature cleared
and the public key in place of this one. -/
def signedBytes (tx : Transaction) (idx : ℕ) (pubkey : PublicKey) : Result Bytes :=
  let cleared := tx.inputs.map TransactionInput.clearSignature
  let inputs := cleared.modify idx fun inp ↦
    { inp with sigSize := signPublicKeyBytes }.setSignature pubkey.toList true
  serialize { tx with inputs := inputs }

def verifyInputs (tx : Transaction) : List (TransactionInput × PublicKey) → ℕ → Result Bool
  | [], _ => .ok true
  | (inp, pubkey) :: rest, idx => do
    let msg ← tx.signedBytes idx pubkey
    if na.signVerifyDetached inp.sig msg pubkey then verifyInputs tx rest (idx + 1)
    else return false

def validateTransaction (tx : Transaction) (pubkeys : List PublicKey) (inAmounts : List UInt64) :
    Result Bool :=
  if !tx.inputs.all TransactionInput.isSigned then .ok false
  else if total inAmounts < total tx.outAmounts then .ok false
  else tx.verifyInputs na (tx.inputs.zip pubkeys) 0

end Transaction

/-- The coinbase of a height: one input that refers to nothing and whose
signature field holds the height, one output. -/
def coinbaseTransaction (pubkey : PublicKey) (amount : UInt64) (height : UInt32) : Transaction where
  inputs := [{
    txid := zeros 32
    vout := -1
    sig := uint32ToVectorBigEndian height
    isSigned := true
    sigSize := 4 }]
  outputs := [{ amount := amount, publicKey := pubkey }]

end FheBlockchain.Core.Transactions
