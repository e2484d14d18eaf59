import FheBlockchain.Core.Transactions

namespace FheBlockchain.Core.Serialization

open Transactions Library.BigEndian

@[simp]
theorem length_uint64ToVectorBigEndian (num : UInt64) :
    (uint64ToVectorBigEndian num).length = 8 := by
  simp [uint64ToVectorBigEndian]

theorem copyTo_ok {buffer src res : Bytes} {offset : ℕ} (h : copyTo buffer offset src = .ok res) :
    offset + src.length ≤ buffer.length ∧
      res = buffer.take offset ++ src ++ buffer.drop (offset + src.length) := by
  rw [copyTo] at h
  split_ifs at h with hle
  exact ⟨hle, (Except.ok.inj h).symm⟩

theorem take_copyTo {buffer src res : Bytes} {offset n : ℕ}
    (h : copyTo buffer offset src = .ok res) (hn : n ≤ offset) : res.take n = buffer.take n := by
  obtain ⟨hle, rfl⟩ := copyTo_ok h
  rw [List.append_assoc, List.take_append_of_le_length (by simp; omega), List.take_take,
    Nat.min_eq_left hn]

theorem take_copyTo_end {buffer src res : Bytes} {offset : ℕ}
    (h : copyTo buffer offset src = .ok res) :
    res.take (offset + src.length) = buffer.take offset ++ src := by
  obtain ⟨hle, rfl⟩ := copyTo_ok h
  rw [List.take_left' (by simp; omega)]

theorem take_serialize {inp : TransactionInput} {res : Bytes} (h : inp.serialize = .ok res)
    (hlen : inp.txid.length = 32) : res.take 40 = inp.key := by
  simp only [TransactionInput.serialize, bind, Except.bind] at h
  split at h <;> try contradiction
  next res₁ h₁ =>
  split at h <;> try contradiction
  next res₂ h₂ =>
  split at h <;> try contradiction
  next res₃ h₃ =>
  have htxid := take_copyTo_end h₁
  have hvout := take_copyTo_end h₂
  simp only [hlen, length_uint64ToVectorBigEndian, Nat.zero_add, Nat.reduceAdd, List.take_zero,
    List.nil_append] at htxid hvout
  rw [take_copyTo h (by omega), take_copyTo h₃ (by omega), hvout, htxid]
  rfl

theorem serialize_ok {tx : Transaction} {res : Bytes} (h : tx.serialize = .ok res) :
    ∃ inputs, tx.inputs.mapM TransactionInput.serialize = .ok inputs ∧
      res = sizeBytes tx.inputs ++ inputs.flatten ++ sizeBytes tx.outputs ++
        (tx.outputs.map TransactionOutput.serialize).flatten := by
  simp only [Transaction.serialize, bind, Except.bind] at h
  split at h
  · contradiction
  next inputs hin => exact ⟨inputs, hin, (Except.ok.inj h).symm⟩

theorem key_serialize {tx : Transaction} {inp : TransactionInput} {rest : List TransactionInput}
    {res : Bytes} (h : tx.serialize = .ok res) (hin : tx.inputs = inp :: rest)
    (hlen : inp.txid.length = 32) : (res.drop 8).take 40 = inp.key := by
  obtain ⟨inputs, hmap, rfl⟩ := serialize_ok h
  rw [hin, List.mapM_cons] at hmap
  simp only [bind, Except.bind] at hmap
  split at hmap
  · contradiction
  next first hfirst =>
  split at hmap
  · contradiction
  next others _ =>
  obtain rfl := Except.ok.inj hmap
  have hkey := take_serialize hfirst hlen
  have h40 : 40 ≤ first.length := by
    have hl := congrArg List.length hkey
    simp only [List.length_take, TransactionInput.key, txidVoutPairToKey, List.length_append, hlen,
      length_uint64ToVectorBigEndian] at hl
    omega
  have hsize : (sizeBytes tx.inputs).length = 8 := by simp [sizeBytes]
  rw [List.append_assoc, List.append_assoc, List.drop_left' hsize, List.flatten_cons,
    List.append_assoc, List.take_append_of_le_length h40, hkey]

theorem txid_serialize {na : Sodium} {tx : Transaction} {txid : Bytes}
    (h : tx.txid na = .ok txid) : ∃ res, tx.serialize = .ok res ∧ txid = na.hash res := by
  rw [Transaction.txid] at h
  split_ifs at h
  simp only [bind, Except.bind] at h
  split at h
  · contradiction
  next res hres => exact ⟨res, hres, (Except.ok.inj h).symm⟩

end FheBlockchain.Core.Serialization
