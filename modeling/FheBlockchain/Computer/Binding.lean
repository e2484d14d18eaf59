import FheBlockchain.Computer.Computations
import Mathlib.Algebra.BigOperators.Group.List.Basic

namespace FheBlockchain.Computer.Binding

open Core.Transactions Computations Library.BigEndian

universe u

structure Encryption (fhe : OpenFhe) where
  encryptZeroDeterministic : fhe.CryptoContext → fhe.PublicKey → Bytes → fhe.Ciphertext
  evalAdd : fhe.CryptoContext → fhe.Ciphertext → fhe.Ciphertext → fhe.Ciphertext

variable {fhe : OpenFhe}

def counterBytes (i : ℕ) : Bytes := (bigEndian 8 i).reverse

/-- The seed of the encryption of zero that is added to ciphertext `i`. -/
def counterAndData (i : ℕ) (data : Bytes) : Bytes := counterBytes i ++ data

/-- The first binding archives the ciphertexts, and each adds to the ciphertexts
as they are. -/
def bound (enc : Encryption fhe) (cc : fhe.CryptoContext) (comp : FHEComputation fhe)
    (data : Bytes) : FHEComputation fhe :=
  { comp with
    unboundCiphertextsArchive :=
      if comp.isBound then comp.unboundCiphertextsArchive else comp.ciphertexts
    isBound := true
    ciphertexts := comp.ciphertexts.mapIdx fun i c ↦
      enc.evalAdd cc (enc.encryptZeroDeterministic cc comp.publicKey (counterAndData i data)) c }

def bindInputsToData (enc : Encryption fhe) (comp : FHEComputation fhe) (data : Bytes) :
    Result (FHEComputation fhe) := do
  return bound enc (← comp.getCryptoContext) comp data

def KeepsContext (enc : Encryption fhe) : Prop :=
  ∀ cc a b, fhe.cryptoContext (enc.evalAdd cc a b) = fhe.cryptoContext b

theorem getCryptoContext_bound {enc : Encryption fhe} (hkeep : KeepsContext enc)
    (cc : fhe.CryptoContext) (comp : FHEComputation fhe) (data : Bytes) :
    (bound enc cc comp data).getCryptoContext = comp.getCryptoContext := by
  rw [FHEComputation.getCryptoContext, FHEComputation.getCryptoContext, bound]
  cases comp.ciphertexts with
  | nil => rfl
  | cons c cs => simp [List.mapIdx_cons, hkeep _ _ _]

section Group

variable [AddGroup fhe.Ciphertext] {enc : Encryption fhe} {comp : FHEComputation fhe}
variable {cc : fhe.CryptoContext}

/-- The encryptions of zero that the bindings to `datas` add to ciphertext `i`,
the last one in front. -/
def addedZeros (enc : Encryption fhe) (cc : fhe.CryptoContext) (key : fhe.PublicKey)
    (datas : List Bytes) (i : ℕ) : fhe.Ciphertext :=
  (datas.map fun data ↦
    enc.encryptZeroDeterministic cc key (counterAndData i data)).reverse.sum

theorem addedZeros_cons (key : fhe.PublicKey) (data : Bytes) (datas : List Bytes) (i : ℕ) :
    addedZeros enc cc key (data :: datas) i = addedZeros enc cc key datas i +
      enc.encryptZeroDeterministic cc key (counterAndData i data) := by
  simp [addedZeros]

theorem bindAll_ok (hadd : ∀ cc a b, enc.evalAdd cc a b = a + b) (hkeep : KeepsContext enc)
    (hcc : comp.getCryptoContext = .ok cc) (datas : List Bytes) :
    ∃ comp', datas.foldlM (bindInputsToData enc) comp = .ok comp' ∧
      comp'.ciphertexts = comp.ciphertexts.mapIdx fun i c ↦
        addedZeros enc cc comp.publicKey datas i + c := by
  induction datas generalizing comp with
  | nil => exact ⟨comp, rfl, by simp [addedZeros, List.mapIdx_eq_zipIdx_map]⟩
  | cons data datas ih =>
    obtain ⟨comp', hrest, hcts⟩ := ih ((getCryptoContext_bound hkeep cc comp data).trans hcc)
    refine ⟨comp', ?_, ?_⟩
    · rw [List.foldlM_cons, bindInputsToData, hcc]
      exact hrest
    · rw [hcts, bound, List.mapIdx_mapIdx]
      simp only [addedZeros_cons, hadd, Function.comp_def, add_assoc]

def BoundToLast (enc : Encryption fhe) (comp : FHEComputation fhe) (datas : List Bytes)
    (last : Bytes) : Prop :=
  ∃ cc comp', comp.getCryptoContext = .ok cc ∧
    (datas ++ [last]).foldlM (bindInputsToData enc) comp = .ok comp' ∧
    comp'.ciphertexts = comp.unboundCiphertexts.mapIdx fun i c ↦
      enc.evalAdd cc (enc.encryptZeroDeterministic cc comp.publicKey (counterAndData i last)) c

def Cancels (enc : Encryption fhe) (comp : FHEComputation fhe) (datas : List Bytes) : Prop :=
  ∃ cc, comp.getCryptoContext = .ok cc ∧
    ∀ i < comp.ciphertexts.length, addedZeros enc cc comp.publicKey datas i = 0

/-- Binding a computation that was bound before gives the same result only if
everything that was added before cancels out. -/
theorem boundToLast_iff (hadd : ∀ cc a b, enc.evalAdd cc a b = a + b) (hkeep : KeepsContext enc)
    (hunbound : comp.isBound = false) (datas : List Bytes) (last : Bytes) :
    BoundToLast enc comp datas last ↔ Cancels enc comp datas := by
  have horiginal : comp.unboundCiphertexts = comp.ciphertexts := by
    rw [FHEComputation.unboundCiphertexts, hunbound, if_neg Bool.false_ne_true]
  have hlast (cc : fhe.CryptoContext) (i : ℕ) :
      addedZeros enc cc comp.publicKey (datas ++ [last]) i =
        enc.encryptZeroDeterministic cc comp.publicKey (counterAndData i last) +
          addedZeros enc cc comp.publicKey datas i := by
    simp [addedZeros]
  constructor
  · rintro ⟨cc, comp', hcc, hall, hcts⟩
    obtain ⟨comp₁, hall₁, hcts₁⟩ := bindAll_ok hadd hkeep hcc (datas ++ [last])
    obtain rfl := Except.ok.inj (hall.symm.trans hall₁)
    refine ⟨cc, hcc, fun i hi ↦ ?_⟩
    rw [hcts, horiginal, List.mapIdx_eq_mapIdx_iff] at hcts₁
    have hi' := hcts₁ i hi
    rw [hadd, hlast, add_assoc] at hi'
    exact add_eq_right.mp (add_left_cancel hi').symm
  · rintro ⟨cc, hcc, hzero⟩
    obtain ⟨comp', hall, hcts⟩ := bindAll_ok hadd hkeep hcc (datas ++ [last])
    refine ⟨cc, comp', hcc, hall, ?_⟩
    rw [hcts, horiginal, List.mapIdx_eq_mapIdx_iff]
    intro i hi
    rw [hadd, hlast, hzero i hi, add_zero]

end Group

end FheBlockchain.Computer.Binding
