import FheBlockchain.Core.Blocks
import FheBlockchain.Library.Framing

namespace FheBlockchain.Computer.Computations

open Core.Transactions Core.Blocks Library.BigEndian Library.Framing

structure OpenFhe where
  PublicKey : Type
  Ciphertext : Type
  CryptoContext : Type
  cryptoContext : Ciphertext → CryptoContext
  serializePublicKey : PublicKey → Bytes
  serializeCiphertext : Ciphertext → Bytes
  serializeEvalMultKey : CryptoContext → Bytes

variable {fhe : OpenFhe}

structure FHEComputation (fhe : OpenFhe) where
  expression : Bytes
  publicKey : fhe.PublicKey
  ciphertexts : List fhe.Ciphertext
  timestamp : Int64
  unboundCiphertextsArchive : List fhe.Ciphertext
  isBound : Bool

namespace FHEComputation

def getCryptoContext (comp : FHEComputation fhe) : Result fhe.CryptoContext :=
  match comp.ciphertexts with
  | [] => .error (.abort .indexOutOfRange)
  | c :: _ => .ok (fhe.cryptoContext c)

def unboundCiphertexts (comp : FHEComputation fhe) : List fhe.Ciphertext :=
  if comp.isBound then comp.unboundCiphertextsArchive else comp.ciphertexts

def serialize (comp : FHEComputation fhe) : Result Bytes := do
  let pubos := fhe.serializePublicKey comp.publicKey
  let evos := fhe.serializeEvalMultKey (← comp.getCryptoContext)
  return uint64ToVectorBigEndian comp.timestamp.toUInt64 ++
    sizeBytes comp.expression ++ comp.expression ++ sizeBytes pubos ++ pubos ++
    sizeBytes evos ++ evos ++ sizeBytes comp.unboundCiphertexts ++
    (comp.unboundCiphertexts.map fun c ↦
      sizeBytes (fhe.serializeCiphertext c) ++ fhe.serializeCiphertext c).flatten

end FHEComputation

/-- A computation with the result of its last evaluation and its proof; `depth`
is the depth of the tree of its expression. -/
structure FHEComputer (fhe : OpenFhe) where
  computation : FHEComputation fhe
  lastRes : Option fhe.Ciphertext
  proof : Bytes
  depth : UInt32

namespace FHEComputer

def output (comp : FHEComputer fhe) : Option Bytes := comp.lastRes.map fhe.serializeCiphertext

def toComputation (comp : FHEComputer fhe) : Result Computation := do
  return {
    body := ← comp.computation.serialize
    output := comp.output.getD []
    proof := comp.proof
    difficulty := comp.depth }

end FHEComputer

structure Content where
  timestamp : Int64
  expression : Bytes
  publicKey : Bytes
  evalMultKey : Bytes
  ciphertexts : List Bytes
deriving DecidableEq

def FHEComputation.content (comp : FHEComputation fhe) : Result Content := do
  return {
    timestamp := comp.timestamp
    expression := comp.expression
    publicKey := fhe.serializePublicKey comp.publicKey
    evalMultKey := fhe.serializeEvalMultKey (← comp.getCryptoContext)
    ciphertexts := comp.unboundCiphertexts.map fhe.serializeCiphertext }

namespace Content

def encode (content : Content) : Bytes :=
  bigEndian 8 content.timestamp.toUInt64.toNat ++
    ((bigEndian 8 content.expression.length ++ content.expression) ++
      ((bigEndian 8 content.publicKey.length ++ content.publicKey) ++
        ((bigEndian 8 content.evalMultKey.length ++ content.evalMultKey) ++
          (bigEndian 8 content.ciphertexts.length ++
            (content.ciphertexts.map fun c ↦ bigEndian 8 c.length ++ c).flatten))))

structure Sized (content : Content) : Prop where
  expression : content.expression.length < 256 ^ 8
  publicKey : content.publicKey.length < 256 ^ 8
  evalMultKey : content.evalMultKey.length < 256 ^ 8
  ciphertexts : content.ciphertexts.length < 256 ^ 8 ∧
    ∀ c ∈ content.ciphertexts, c.length < 256 ^ 8

theorem timestamp_inj {a b : Int64} (h : a.toUInt64.toNat = b.toUInt64.toNat) : a = b := by
  cases a
  cases b
  exact congrArg Int64.ofUInt64 (UInt64.toNat_inj.mp h)

theorem encode_inj {a b : Content} (ha : a.Sized) (hb : b.Sized) (h : a.encode = b.encode) :
    a = b := by
  have htime : SelfDelimiting Sized (fun c ↦ bigEndian 8 c.timestamp.toUInt64.toNat)
      fun c ↦ c.timestamp.toUInt64.toNat :=
    selfDelimiting_bigEndian fun c _ ↦ c.timestamp.toUInt64.toNat_lt
  have hexpr := selfDelimiting_sized expression (k := 8) (P := Sized) fun _ h ↦ h.expression
  have hpub := selfDelimiting_sized publicKey (k := 8) (P := Sized) fun _ h ↦ h.publicKey
  have hev := selfDelimiting_sized evalMultKey (k := 8) (P := Sized) fun _ h ↦ h.evalMultKey
  have hct : SelfDelimiting (fun c : Bytes ↦ c.length < 256 ^ 8) (fun c ↦ bigEndian 8 c.length ++ c)
      id := selfDelimiting_sized id fun _ h ↦ h
  have hcts : SelfDelimiting Sized _ _ := fun x y r s hx hy ↦
    (hct.list 8) x.ciphertexts y.ciphertexts r s hx.ciphertexts hy.ciphertexts
  have hall := htime.append (hexpr.append (hpub.append (hev.append hcts)))
  have hview := hall.inj ha hb h
  simp only [Prod.mk.injEq, List.map_id] at hview
  obtain ⟨ht, he, hp, hk, hc⟩ := hview
  have htime' := timestamp_inj ht
  cases a
  cases b
  simp_all

end Content

theorem serialize_eq (comp : FHEComputation fhe) :
    comp.serialize = comp.content.map Content.encode := by
  rw [FHEComputation.serialize, FHEComputation.content]
  cases comp.getCryptoContext with
  | error e => rfl
  | ok context =>
    simp [bind, Except.bind, pure, Except.pure, Except.map, Content.encode, sizeBytes,
      uint64ToVectorBigEndian, Function.comp_def]

end FheBlockchain.Computer.Computations
