import FheBlockchain.Computer.Binding
import FheBlockchain.Computer.Expressions
import FheBlockchain.Library.Results

namespace FheBlockchain.Computer.Messages

open Core.Transactions Core.Blocks Computations Binding Expressions Library.Results

structure ProtoComputation where
  expression : Bytes
  publicKey : Bytes
  ciphertexts : List Bytes
  timestamp : Int64
  evalmultKey : Bytes
  output : Bytes
  proof : Bytes
deriving DecidableEq, Repr

/-- What the code takes from OpenFHE to read a computation. The evaluation keys
go to the context, which is there already. -/
structure Deserialize (fhe : OpenFhe) where
  publicKey : Bytes → Result fhe.PublicKey
  ciphertext : Bytes → Result fhe.Ciphertext
  evalMultKey : fhe.CryptoContext → Bytes → Result Unit

structure Reads {fhe : OpenFhe} (des : Deserialize fhe) : Prop where
  publicKey : ∀ key, des.publicKey (fhe.serializePublicKey key) = .ok key
  ciphertext : ∀ c, des.ciphertext (fhe.serializeCiphertext c) = .ok c
  evalMultKey : ∀ cc, des.evalMultKey cc (fhe.serializeEvalMultKey cc) = .ok ()
  nonempty : ∀ c, fhe.serializeCiphertext c ≠ []

variable {fhe : OpenFhe} (des : Deserialize fhe) (enc : Encryption fhe)

def FHEComputation.fromProto (p : ProtoComputation) : Result (FHEComputation fhe) := do
  let publicKey ← des.publicKey p.publicKey
  let ciphertexts ← p.ciphertexts.mapM des.ciphertext
  let comp : FHEComputation fhe := {
    expression := p.expression
    publicKey := publicKey
    ciphertexts := ciphertexts
    timestamp := p.timestamp
    unboundCiphertextsArchive := []
    isBound := false }
  if p.evalmultKey ≠ [] then des.evalMultKey (← comp.getCryptoContext) p.evalmultKey
  return comp

namespace FHEComputer

def toProto (comp : FHEComputer fhe) : Result ProtoComputation := do
  let cc ← comp.computation.getCryptoContext
  return {
    expression := comp.computation.expression
    publicKey := fhe.serializePublicKey comp.computation.publicKey
    ciphertexts := comp.computation.unboundCiphertexts.map fhe.serializeCiphertext
    timestamp := comp.computation.timestamp
    evalmultKey := fhe.serializeEvalMultKey cc
    output := comp.output.getD []
    proof := comp.proof }

def readOutput (output : Bytes) : Result (Option fhe.Ciphertext) :=
  if output = [] then .ok none else do return some (← des.ciphertext output)

def fromProto (p : ProtoComputation) : Result (FHEComputer fhe) := do
  let computation ← FHEComputation.fromProto des p
  let depth ← treeDepth p.expression
  let lastRes ← readOutput des p.output
  return { computation := computation, lastRes := lastRes, proof := p.proof, depth := depth }

def bindToData (comp : FHEComputer fhe) (data : Bytes) : Result (FHEComputer fhe) := do
  return { comp with computation := ← bindInputsToData enc comp.computation data }

/-- The objects that a node works with: read from JSON or from a message, bound
any number of times, evaluated and proved. -/
inductive Produced : FHEComputer fhe → Prop
  | json {comp : FHEComputer fhe} : comp.computation.isBound = false →
      treeDepth comp.computation.expression = .ok comp.depth → Produced comp
  | proto {p : ProtoComputation} {comp : FHEComputer fhe} :
      fromProto des p = .ok comp → Produced comp
  | bind {comp comp' : FHEComputer fhe} {data : Bytes} :
      Produced comp → bindToData enc comp data = .ok comp' → Produced comp'
  | prove {comp : FHEComputer fhe} (res : fhe.Ciphertext) (proof : Bytes) :
      Produced comp → Produced { comp with lastRes := some res, proof := proof }

/-- A computer has the depth of its expression, and its archive is in the
context of its ciphertexts. -/
structure Sound (comp : FHEComputer fhe) : Prop where
  depth : treeDepth comp.computation.expression = .ok comp.depth
  contexts : comp.computation.unboundCiphertexts.map fhe.cryptoContext =
    comp.computation.ciphertexts.map fhe.cryptoContext

variable {des enc} {comp : FHEComputer fhe}

theorem unboundCiphertexts_bound (cc : fhe.CryptoContext) (comp : FHEComputation fhe)
    (data : Bytes) :
    (bound enc cc comp data).unboundCiphertexts = comp.unboundCiphertexts := by
  simp only [FHEComputation.unboundCiphertexts, bound, if_true]

theorem contexts_bound (hkeep : KeepsContext enc) (cc : fhe.CryptoContext)
    (comp : FHEComputation fhe) (data : Bytes) :
    (bound enc cc comp data).ciphertexts.map fhe.cryptoContext =
      comp.ciphertexts.map fhe.cryptoContext := by
  refine List.ext_getElem (by simp [bound]) fun i _ _ ↦ ?_
  simp only [bound, List.getElem_map, List.getElem_mapIdx]
  exact hkeep _ _ _

theorem sound_of_unbound (hbound : comp.computation.isBound = false)
    (hdepth : treeDepth comp.computation.expression = .ok comp.depth) : Sound comp :=
  ⟨hdepth, by rw [FHEComputation.unboundCiphertexts, hbound]; rfl⟩

theorem fromProto_unbound {p : ProtoComputation} (h : fromProto des p = .ok comp) :
    comp.computation.isBound = false ∧
      treeDepth comp.computation.expression = .ok comp.depth := by
  obtain ⟨computation, hcomp, h⟩ := bind_eq_ok.mp h
  obtain ⟨depth, hdepth, h⟩ := bind_eq_ok.mp h
  obtain ⟨lastRes, -, he⟩ := bind_eq_ok.mp h
  cases he
  obtain ⟨publicKey, -, h⟩ := bind_eq_ok.mp hcomp
  obtain ⟨ciphertexts, -, h⟩ := bind_eq_ok.mp h
  dsimp only at h
  split_ifs at h
  · obtain ⟨cc, -, h⟩ := bind_eq_ok.mp h
    obtain ⟨-, -, he⟩ := bind_eq_ok.mp h
    cases he
    exact ⟨rfl, hdepth⟩
  · cases h
    exact ⟨rfl, hdepth⟩

theorem Produced.sound (hkeep : KeepsContext enc) (h : Produced des enc comp) : Sound comp := by
  induction h with
  | json hbound hdepth => exact sound_of_unbound hbound hdepth
  | proto hp => exact sound_of_unbound (fromProto_unbound hp).1 (fromProto_unbound hp).2
  | @bind comp comp' data _ hb ih =>
    obtain ⟨computation, hbind, he⟩ := bind_eq_ok.mp hb
    obtain ⟨cc, -, hc⟩ := bind_eq_ok.mp hbind
    cases he
    cases hc
    refine ⟨ih.depth, ?_⟩
    rw [unboundCiphertexts_bound, contexts_bound hkeep]
    exact ih.contexts
  | prove res proof _ ih => exact ⟨ih.depth, ih.contexts⟩

/-- A computer as its message gives it back. -/
def unbound (comp : FHEComputer fhe) : FHEComputer fhe :=
  { comp with computation := { comp.computation with
      ciphertexts := comp.computation.unboundCiphertexts
      unboundCiphertextsArchive := []
      isBound := false } }

theorem Sound.unbound (h : Sound comp) : Sound (unbound comp) := sound_of_unbound rfl h.depth

theorem getCryptoContext_unbound (h : Sound comp) :
    (unbound comp).computation.getCryptoContext = comp.computation.getCryptoContext := by
  have hctx := h.contexts
  rw [FHEComputation.getCryptoContext, FHEComputation.getCryptoContext, unbound]
  cases hu : comp.computation.unboundCiphertexts with
  | nil =>
    rw [hu, List.map_nil, eq_comm, List.map_eq_nil_iff] at hctx
    rw [hctx]
  | cons c cs =>
    cases hc : comp.computation.ciphertexts with
    | nil => simp [hu, hc] at hctx
    | cons c' cs' =>
      rw [hu, hc, List.map_cons, List.map_cons] at hctx
      exact congrArg Except.ok (List.cons.inj hctx).1

theorem toComputation_unbound (h : Sound comp) :
    (unbound comp).toComputation = comp.toComputation := by
  rw [FHEComputer.toComputation, FHEComputer.toComputation, FHEComputation.serialize,
    FHEComputation.serialize, getCryptoContext_unbound h]
  rfl

theorem fromProto_toProto (hr : Reads des) (h : Sound comp) {k : Computation}
    (hk : comp.toComputation = .ok k) :
    ∃ p, toProto comp = .ok p ∧ fromProto des p = .ok (unbound comp) := by
  obtain ⟨body, hbody, -⟩ := bind_eq_ok.mp hk
  obtain ⟨cc, hcc, -⟩ := bind_eq_ok.mp hbody
  refine ⟨_, by rw [toProto, hcc]; rfl, ?_⟩
  have hcts : (comp.computation.unboundCiphertexts.map fhe.serializeCiphertext).mapM
      des.ciphertext = .ok comp.computation.unboundCiphertexts :=
    mapM_map_ok fun c _ ↦ hr.ciphertext c
  have hcomp : FHEComputation.fromProto des {
      expression := comp.computation.expression
      publicKey := fhe.serializePublicKey comp.computation.publicKey
      ciphertexts := comp.computation.unboundCiphertexts.map fhe.serializeCiphertext
      timestamp := comp.computation.timestamp
      evalmultKey := fhe.serializeEvalMultKey cc
      output := comp.output.getD []
      proof := comp.proof } = .ok (unbound comp).computation := by
    refine bind_eq_ok.mpr ⟨_, hr.publicKey _, bind_eq_ok.mpr ⟨_, hcts, ?_⟩⟩
    dsimp only
    split_ifs
    · exact bind_eq_ok.mpr ⟨cc, (getCryptoContext_unbound h).trans hcc,
        bind_eq_ok.mpr ⟨(), hr.evalMultKey cc, rfl⟩⟩
    · rfl
  have hres : readOutput des (comp.output.getD []) = .ok comp.lastRes := by
    rw [readOutput, FHEComputer.output]
    cases comp.lastRes with
    | none => rfl
    | some c =>
      rw [Option.map_some, Option.getD_some, if_neg (hr.nonempty c)]
      exact bind_eq_ok.mpr ⟨c, hr.ciphertext c, rfl⟩
  exact bind_eq_ok.mpr ⟨_, hcomp, bind_eq_ok.mpr ⟨_, h.depth, bind_eq_ok.mpr ⟨_, hres, rfl⟩⟩⟩

end FHEComputer

end FheBlockchain.Computer.Messages
