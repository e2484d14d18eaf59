import FheBlockchain.Core.Transactions

namespace FheBlockchain.Core.Amounts

open Transactions Library.BigEndian

def worth (amounts : List UInt64) : ℕ := (amounts.map UInt64.toNat).sum

theorem toNat_total (amounts : List UInt64) :
    (Transaction.total amounts).toNat = worth amounts % 2 ^ 64 := by
  have hfold (acc : UInt64) : (amounts.foldl (· + ·) acc).toNat =
      (acc.toNat + worth amounts) % 2 ^ 64 := by
    induction amounts generalizing acc with
    | nil => simp [worth, Nat.mod_eq_of_lt acc.toNat_lt]
    | cons a amounts ih =>
      rw [List.foldl_cons, ih, UInt64.toNat_add, worth, worth, List.map_cons, List.sum_cons]
      omega
  simpa [Transaction.total] using hfold 0

section Fee

variable {na : Sodium} {tx : Transaction} {pubkeys : List PublicKey} {inAmounts : List UInt64}

theorem total_le_of_validated (h : tx.validateTransaction na pubkeys inAmounts = .ok true) :
    Transaction.total tx.outAmounts ≤ Transaction.total inAmounts := by
  rw [Transaction.validateTransaction] at h
  by_contra hnot
  rw [if_pos (UInt64.not_le.mp hnot)] at h
  split_ifs at h <;> exact absurd (Except.ok.inj h) Bool.false_ne_true

theorem fee_of_le (h : Transaction.total tx.outAmounts ≤ Transaction.total inAmounts) :
    tx.fee inAmounts = .ok (Transaction.total inAmounts - Transaction.total tx.outAmounts) := by
  rw [Transaction.fee, if_neg (UInt64.not_lt.mpr h)]

def Balanced (tx : Transaction) (inAmounts : List UInt64) : Prop :=
  worth tx.outAmounts ≤ worth inAmounts ∧
    ∃ fee, tx.fee inAmounts = .ok fee ∧ fee.toNat = worth inAmounts - worth tx.outAmounts

/-- A validated transaction is balanced just when both of its sums wrap around
equally often. -/
theorem balanced_iff (h : tx.validateTransaction na pubkeys inAmounts = .ok true) :
    Balanced tx inAmounts ↔ worth tx.outAmounts / 2 ^ 64 = worth inAmounts / 2 ^ 64 := by
  have hle := total_le_of_validated h
  have hfee := fee_of_le hle
  have hsub := UInt64.toNat_sub_of_le _ _ hle
  have hnat := UInt64.le_iff_toNat_le.mp hle
  rw [toNat_total, toNat_total] at hsub hnat
  constructor
  · intro hbal
    obtain ⟨hworth, fee, hfee', heq⟩ := hbal
    obtain rfl := Except.ok.inj (hfee.symm.trans hfee')
    rw [hsub] at heq
    omega
  · intro hwraps
    refine ⟨by omega, _, hfee, ?_⟩
    rw [hsub]
    omega

def paying (amounts : List UInt64) : Transaction where
  inputs := [{ TransactionInput.unsigned (zeros 32) 0 with isSigned := true, sig := zeros 64 }]
  outputs := amounts.map fun amount ↦ ⟨amount, Vector.replicate 32 0⟩

/-- Hashes that show the 32 bytes in front of the last 32, and one key, whose
signatures are all zeros. -/
def sampleSodium : Sodium where
  generichash data := ⟨(bigEndian 32 (ofBigEndian data / 256 ^ 32)).toArray, by simp⟩
  signVerifyDetached sig _ _ := sig = zeros 64

/-- It spends the first output of `tx`. -/
def spending (na : Sodium) (tx : Transaction) (amounts : List UInt64) : Transaction where
  inputs := [{ TransactionInput.unsigned ((tx.txid na).toOption.getD []) 0 with
    isSigned := true, sig := zeros 64 }]
  outputs := amounts.map fun amount ↦ ⟨amount, Vector.replicate 32 0⟩

theorem balanced_iff_paying : Balanced (paying [3, 4]) [10] := by
  have hvalid : (paying [3, 4]).validateTransaction sampleSodium [Vector.replicate 32 0] [10] =
      .ok true := by decide +kernel
  exact (balanced_iff hvalid).mpr (by decide)

def halfRange : UInt64 := UInt64.ofNat (2 ^ 63)

/-- Two outputs of `2 ^ 63` are paid out of one unit. -/
theorem minted_validated : ¬ ∀ (na : Sodium) (tx : Transaction) (pubkeys : List PublicKey)
    (inAmounts : List UInt64), tx.validateTransaction na pubkeys inAmounts = .ok true →
      Balanced tx inAmounts := by
  intro h
  have hvalid : (paying [halfRange, halfRange]).validateTransaction sampleSodium [Vector.replicate 32 0]
      [1] = .ok true := by decide +kernel
  have hworth := (h _ _ _ _ hvalid).1
  exact absurd hworth (by decide +kernel)

end Fee

end FheBlockchain.Core.Amounts
