import FheBlockchain.Core.Transactions
import FheBlockchain.Library.Results

namespace FheBlockchain.Core.Messages

open Transactions Library.Results

structure ProtoTransactionInput where
  txid : Bytes
  vout : UInt64
  sig : Bytes
deriving DecidableEq, Repr

structure ProtoTransactionOutput where
  amount : UInt64
  publicKey : Bytes
deriving DecidableEq, Repr

structure ProtoTransaction where
  inputs : List ProtoTransactionInput
  outputs : List ProtoTransactionOutput
deriving DecidableEq, Repr

/-- The first `n` bytes behind `c_str()`, which ends in one zero. -/
def readCStr (s : Bytes) (n : ℕ) : Result Bytes :=
  if n ≤ s.length + 1 then .ok ((s ++ [0]).take n) else .error (.abort .bufferOverflow)

theorem readCStr_self (s : Bytes) : readCStr s s.length = .ok s := by
  rw [readCStr, if_pos (Nat.le_succ _), List.take_left]

theorem length_of_readCStr {s bytes : Bytes} {n : ℕ} (h : readCStr s n = .ok bytes) :
    bytes.length = n := by
  rw [readCStr] at h
  split_ifs at h with hle
  cases h
  simp only [List.length_take, List.length_append, List.length_singleton]
  omega

namespace TransactionInput

open Transactions.TransactionInput

def toProto (inp : TransactionInput) : ProtoTransactionInput where
  txid := inp.txid
  vout := inp.vout
  sig := inp.sig

/-- The size of the signature is not sent; it follows from the position of the
transaction in its block. -/
def sentSigSize (isForCoinbase : Bool) : UInt32 := if isForCoinbase then 4 else signBytes

def fromProto (p : ProtoTransactionInput) (isForCoinbase : Bool) : Result TransactionInput :=
  let res := unsigned p.txid p.vout
  if p.sig = [] then .ok res
  else do
    let res := { res with sigSize := sentSigSize isForCoinbase }
    return setSignature res (← readCStr p.sig res.sigSize.toNat) false

/-- An input with a signature of the size for its position, or with none. -/
inductive Sendable (isForCoinbase : Bool) : TransactionInput → Prop
  | unsigned (txid : Bytes) (vout : UInt64) : Sendable isForCoinbase (unsigned txid vout)
  | signed {txid sig : Bytes} {vout : UInt64} :
      sig.length = (sentSigSize isForCoinbase).toNat →
      Sendable isForCoinbase ⟨txid, vout, sig, true, sentSigSize isForCoinbase⟩

variable {inp : TransactionInput} {p : ProtoTransactionInput} {isForCoinbase : Bool}

theorem sendable_of_fromProto (h : fromProto p isForCoinbase = .ok inp) :
    Sendable isForCoinbase inp := by
  rw [fromProto] at h
  split_ifs at h with hsig
  · cases h
    exact .unsigned _ _
  · obtain ⟨sig, hread, he⟩ := bind_eq_ok.mp h
    have hlen := length_of_readCStr hread
    dsimp only at hlen
    cases he
    rw [setSignature, ← hlen, List.take_length]
    exact .signed hlen

theorem fromProto_toProto (h : Sendable isForCoinbase inp) :
    fromProto (toProto inp) isForCoinbase = .ok inp := by
  cases h with
  | unsigned txid vout => rfl
  | @signed txid sig vout hlen =>
    have hne : sig ≠ [] := by
      rintro rfl
      cases isForCoinbase <;> contradiction
    rw [fromProto, toProto, if_neg hne, bind_eq_ok]
    refine ⟨sig, ?_, ?_⟩
    · dsimp only
      rw [← hlen]
      exact readCStr_self sig
    · simp only [setSignature, ← hlen, List.take_length]
      rfl

end TransactionInput

namespace TransactionOutput

def toProto (outp : TransactionOutput) : ProtoTransactionOutput where
  amount := outp.amount
  publicKey := outp.publicKey.toList

def fromProto (p : ProtoTransactionOutput) : Result TransactionOutput := do
  let key ← readCStr p.publicKey signPublicKeyBytes.toNat
  return { amount := p.amount, publicKey := Vector.ofFn fun i ↦ key.getD i 0 }

theorem fromProto_toProto (outp : TransactionOutput) : fromProto (toProto outp) = .ok outp := by
  have hlen : outp.publicKey.toList.length = signPublicKeyBytes.toNat := by simp [signPublicKeyBytes]
  rw [fromProto, toProto, bind_eq_ok]
  refine ⟨outp.publicKey.toList, hlen ▸ readCStr_self _, ?_⟩
  have hkey : (Vector.ofFn fun i : Fin 32 ↦ outp.publicKey.toList.getD i 0) = outp.publicKey := by
    ext i hi
    simp
  rw [hkey]
  rfl

end TransactionOutput

namespace Transaction

def toProto (tx : Transaction) : ProtoTransaction where
  inputs := tx.inputs.map TransactionInput.toProto
  outputs := tx.outputs.map TransactionOutput.toProto

def fromProto (p : ProtoTransaction) (isCoinbase : Bool) : Result Transaction := do
  let inputs ← p.inputs.mapM (TransactionInput.fromProto · isCoinbase)
  let outputs ← p.outputs.mapM TransactionOutput.fromProto
  return ⟨inputs, outputs⟩

def Sendable (isCoinbase : Bool) (tx : Transaction) : Prop :=
  ∀ inp ∈ tx.inputs, TransactionInput.Sendable isCoinbase inp

variable {tx : Transaction} {isCoinbase : Bool}

theorem sendable_of_fromProto {p : ProtoTransaction} (h : fromProto p isCoinbase = .ok tx) :
    Sendable isCoinbase tx := by
  obtain ⟨inputs, hinputs, h⟩ := bind_eq_ok.mp h
  obtain ⟨outputs, -, he⟩ := bind_eq_ok.mp h
  cases he
  intro inp hinp
  obtain ⟨q, -, hq⟩ := exists_of_forall₂ (forall₂_mapM hinputs).flip hinp
  exact TransactionInput.sendable_of_fromProto hq

theorem fromProto_toProto (h : Sendable isCoinbase tx) :
    fromProto (toProto tx) isCoinbase = .ok tx := by
  have hin : (tx.inputs.map TransactionInput.toProto).mapM (TransactionInput.fromProto · isCoinbase) =
      .ok tx.inputs :=
    mapM_map_ok fun inp hinp ↦ TransactionInput.fromProto_toProto (h inp hinp)
  have hout : (tx.outputs.map TransactionOutput.toProto).mapM TransactionOutput.fromProto =
      .ok tx.outputs :=
    mapM_map_ok fun outp _ ↦ TransactionOutput.fromProto_toProto outp
  rw [fromProto, toProto, bind_eq_ok]
  exact ⟨tx.inputs, hin, bind_eq_ok.mpr ⟨tx.outputs, hout, rfl⟩⟩

theorem sendable_coinbase (pubkey : PublicKey) (amount : UInt64) (height : UInt32) :
    Sendable true (coinbaseTransaction pubkey amount height) := by
  intro inp hinp
  rw [List.mem_singleton.mp hinp]
  exact .signed (Library.BigEndian.length_bigEndian _ _)

end Transaction

end FheBlockchain.Core.Messages
