import FheBlockchain.Core.Blocks
import FheBlockchain.Computer.Messages
import FheBlockchain.Core.Messages

namespace FheBlockchain.Chain.Wire

open Core.Transactions Core.Blocks Core.Messages Computer.Computations Computer.Binding
open Computer.Messages Library.Results

structure ProtoBlockHeader where
  prevBlockHash : Bytes
  merkleRoot : Bytes
  timestamp : Int64
  difficulty : UInt32
  computations : List ProtoComputation
deriving DecidableEq, Repr

structure ProtoBlock where
  header : ProtoBlockHeader
  transactions : List ProtoTransaction
deriving DecidableEq, Repr

variable {fhe : OpenFhe} (des : Deserialize fhe) (enc : Encryption fhe)

/-- `to_proto` reads the hash of the header that `prev_block_header_` points
to. The second argument holds the computations of the header. -/
def BlockHeader.toProto (header : BlockHeader) (comps : List (FHEComputer fhe)) :
    Result ProtoBlockHeader :=
  match header.prevBlockHeader with
  | none => .error (.abort .nullPointer)
  | some prevh => do
    let computations ← comps.mapM FHEComputer.toProto
    return {
      prevBlockHash := prevh
      merkleRoot := header.merkleRoot
      timestamp := header.timestamp
      difficulty := header.difficulty
      computations := computations }

def BlockHeader.fromProto (p : ProtoBlockHeader) : Result (BlockHeader × List (FHEComputer fhe)) := do
  let comps ← p.computations.mapM (FHEComputer.fromProto des)
  let computations ← comps.mapM FHEComputer.toComputation
  return ({
    prevBlockHeader := none
    ownPrevHash := p.prevBlockHash
    merkleRoot := p.merkleRoot
    timestamp := p.timestamp
    difficulty := p.difficulty
    computations := computations }, comps)

def transactionsFromProto : List ProtoTransaction → Result (List Transaction)
  | [] => .ok []
  | cb :: txs => do
    let cb ← Core.Messages.Transaction.fromProto cb true
    let txs ← txs.mapM (Core.Messages.Transaction.fromProto · false)
    return cb :: txs

abbrev Loaded (fhe : OpenFhe) := Block × List (FHEComputer fhe)

def Block.toProto (b : Loaded fhe) : Result ProtoBlock := do
  let header ← BlockHeader.toProto b.1.header b.2
  return {
    header := header
    transactions := b.1.transactions.map Core.Messages.Transaction.toProto }

def Block.fromProto (p : ProtoBlock) : Result (Loaded fhe) := do
  let (header, comps) ← BlockHeader.fromProto des p.header
  let transactions ← transactionsFromProto p.transactions
  return (⟨header, transactions⟩, comps)

def roundTrip (b : Loaded fhe) : Result (Loaded fhe) := do
  Block.fromProto des (← Block.toProto b)

def linked (b : Block) : Block :=
  { b with header := { b.header with prevBlockHeader := some b.header.prevHash } }

/-- A block that goes from node to node. Each takes it into its chain and binds
its computations to some data before it sends the block on. -/
def relay : List (FHEComputer fhe → List Bytes) → Loaded fhe → Result (Loaded fhe)
  | [], b => roundTrip des b
  | datas :: hops, b => do
    let (b, comps) ← roundTrip des b
    let comps ← comps.mapM fun comp ↦ (datas comp).foldlM (FHEComputer.bindToData enc) comp
    relay hops (linked b, comps)

section RoundTrip

def Sendable : List Transaction → Prop
  | [] => True
  | cb :: txs => Transaction.Sendable true cb ∧ ∀ tx ∈ txs, Transaction.Sendable false tx

theorem sendable_of_fromProto {ps : List ProtoTransaction} {txs : List Transaction}
    (h : transactionsFromProto ps = .ok txs) : Sendable txs := by
  cases ps with
  | nil =>
    cases h
    trivial
  | cons p ps =>
    obtain ⟨cb, hcb, h⟩ := bind_eq_ok.mp h
    obtain ⟨rest, hrest, he⟩ := bind_eq_ok.mp h
    cases he
    refine ⟨Transaction.sendable_of_fromProto hcb, fun tx htx ↦ ?_⟩
    obtain ⟨q, -, hq⟩ := exists_of_forall₂ (forall₂_mapM hrest).flip htx
    exact Transaction.sendable_of_fromProto hq

theorem transactions_survive {txs : List Transaction} (h : Sendable txs) :
    transactionsFromProto (txs.map Transaction.toProto) = .ok txs := by
  cases txs with
  | nil => rfl
  | cons cb txs =>
    have hrest : (txs.map Transaction.toProto).mapM (Transaction.fromProto · false) = .ok txs :=
      mapM_map_ok fun tx htx ↦ Transaction.fromProto_toProto (h.2 tx htx)
    exact bind_eq_ok.mpr ⟨cb, Transaction.fromProto_toProto h.1, bind_eq_ok.mpr ⟨txs, hrest, rfl⟩⟩

/-- A block that a chain has linked to the header it names, with its
computations. -/
structure Deliverable (b : Loaded fhe) : Prop where
  prev : b.1.header.prevBlockHeader = some b.1.header.arrivedPrevHash
  transactions : Sendable b.1.transactions
  sound : ∀ comp ∈ b.2, FHEComputer.Sound comp
  computations : b.2.mapM FHEComputer.toComputation = .ok b.1.header.computations

def delivered (b : Loaded fhe) : Loaded fhe :=
  (⟨{ b.1.header with
      prevBlockHeader := none
      ownPrevHash := b.1.header.arrivedPrevHash }, b.1.transactions⟩,
    b.2.map FHEComputer.unbound)

variable {des enc} {b : Loaded fhe}

theorem computations_survive (hr : Reads des) {comps : List (FHEComputer fhe)}
    {ks : List Computation} (hsound : ∀ comp ∈ comps, FHEComputer.Sound comp)
    (hks : comps.mapM FHEComputer.toComputation = .ok ks) :
    ∃ ps, comps.mapM FHEComputer.toProto = .ok ps ∧
      ps.mapM (FHEComputer.fromProto des) = .ok (comps.map FHEComputer.unbound) ∧
      (comps.map FHEComputer.unbound).mapM FHEComputer.toComputation = .ok ks := by
  induction comps generalizing ks with
  | nil => exact ⟨[], rfl, rfl, hks⟩
  | cons comp comps ih =>
    rw [List.mapM_cons, bind_eq_ok] at hks
    obtain ⟨k, hk, hks⟩ := hks
    obtain ⟨ks', hks', he⟩ := bind_eq_ok.mp hks
    cases he
    have hcomp := hsound comp (by simp)
    obtain ⟨p, hp, hq⟩ := FHEComputer.fromProto_toProto hr hcomp hk
    obtain ⟨ps, hps, hqs, hall⟩ := ih (fun c hc ↦ hsound c (by simp [hc])) hks'
    exact ⟨p :: ps, mapM_cons_ok hp hps, mapM_cons_ok hq hqs,
      mapM_cons_ok ((FHEComputer.toComputation_unbound hcomp).trans hk) hall⟩

theorem roundTrip_ok (hr : Reads des) (h : Deliverable b) : roundTrip des b = .ok (delivered b) := by
  obtain ⟨ps, hps, hqs, hks⟩ := computations_survive hr h.sound h.computations
  have hheader : BlockHeader.toProto b.1.header b.2 = .ok {
      prevBlockHash := b.1.header.arrivedPrevHash
      merkleRoot := b.1.header.merkleRoot
      timestamp := b.1.header.timestamp
      difficulty := b.1.header.difficulty
      computations := ps } := by
    rw [BlockHeader.toProto, h.prev]
    exact bind_eq_ok.mpr ⟨ps, hps, rfl⟩
  refine bind_eq_ok.mpr ⟨_, bind_eq_ok.mpr ⟨_, hheader, rfl⟩, ?_⟩
  refine bind_eq_ok.mpr ⟨_, bind_eq_ok.mpr ⟨_, hqs, bind_eq_ok.mpr ⟨_, hks, rfl⟩⟩, ?_⟩
  exact bind_eq_ok.mpr ⟨_, transactions_survive h.transactions, rfl⟩

theorem arrivedPrevHash_idem (header : BlockHeader) :
    ({ header with
      prevBlockHeader := none
      ownPrevHash := header.arrivedPrevHash } : BlockHeader).arrivedPrevHash =
      header.arrivedPrevHash := by
  by_cases h : header.ownPrevHash = [] <;> simp [BlockHeader.arrivedPrevHash, h, zeros]

/-- What the receiver of a block recomputes. -/
structure SameOnWire (na : Sodium) (b b' : Loaded fhe) : Prop where
  hash : b'.1.hash na = b.1.hash na
  bindingData : b'.1.header.serialize false = b.1.header.serialize false
  serializations : b'.1.transactions.map Transaction.serialize =
    b.1.transactions.map Transaction.serialize
  txids : b'.1.transactions.map (Transaction.txid na) = b.1.transactions.map (Transaction.txid na)
  proofs : b'.2.map FHEComputer.proof = b.2.map FHEComputer.proof
  outputs : b'.2.map FHEComputer.output = b.2.map FHEComputer.output
  difficulty : b'.1.header.difficulty = b.1.header.difficulty
  difficulties : b'.2.map FHEComputer.depth = b.2.map FHEComputer.depth

theorem sameOnWire_delivered (na : Sodium) (h : Deliverable b) : SameOnWire na b (delivered b) where
  hash := by
    simp only [Block.hash, BlockHeader.hash, delivered, arrivedPrevHash_idem]
    rfl
  bindingData := by
    simp only [BlockHeader.serialize, BlockHeader.prevHash, delivered, h.prev, Option.getD_some,
      Option.getD_none, arrivedPrevHash_idem]
    rfl
  serializations := rfl
  txids := rfl
  proofs := List.map_map.trans rfl
  outputs := List.map_map.trans rfl
  difficulty := rfl
  difficulties := List.map_map.trans rfl

theorem SameOnWire.trans {na : Sodium} {b b' b'' : Loaded fhe} (h : SameOnWire na b b')
    (h' : SameOnWire na b' b'') : SameOnWire na b b'' where
  hash := h'.hash.trans h.hash
  bindingData := h'.bindingData.trans h.bindingData
  serializations := h'.serializations.trans h.serializations
  txids := h'.txids.trans h.txids
  proofs := h'.proofs.trans h.proofs
  outputs := h'.outputs.trans h.outputs
  difficulty := h'.difficulty.trans h.difficulty
  difficulties := h'.difficulties.trans h.difficulties

structure Rebound (comp comp' : FHEComputer fhe) : Prop where
  sound : FHEComputer.Sound comp'
  view : comp'.toComputation = comp.toComputation
  proof : comp'.proof = comp.proof
  output : comp'.output = comp.output
  depth : comp'.depth = comp.depth

theorem bindAll_rebound (hkeep : KeepsContext enc) {comp : FHEComputer fhe} {k : Computation}
    (h : FHEComputer.Sound comp) (hk : comp.toComputation = .ok k) (datas : List Bytes) :
    ∃ comp', datas.foldlM (FHEComputer.bindToData enc) comp = .ok comp' ∧ Rebound comp comp' := by
  induction datas generalizing comp with
  | nil => exact ⟨comp, rfl, h, rfl, rfl, rfl, rfl⟩
  | cons data datas ih =>
    obtain ⟨body, hbody, -⟩ := bind_eq_ok.mp hk
    obtain ⟨cc, hcc, -⟩ := bind_eq_ok.mp hbody
    let next : FHEComputer fhe := { comp with computation := bound enc cc comp.computation data }
    have hbind : FHEComputer.bindToData enc comp data = .ok next := by
      rw [FHEComputer.bindToData, bindInputsToData, hcc]
      rfl
    have hnext : FHEComputer.Sound next := by
      refine ⟨h.depth, ?_⟩
      rw [FHEComputer.unboundCiphertexts_bound, FHEComputer.contexts_bound hkeep]
      exact h.contexts
    have hview : next.toComputation = comp.toComputation := by
      rw [FHEComputer.toComputation, FHEComputer.toComputation, FHEComputation.serialize,
        FHEComputation.serialize, getCryptoContext_bound hkeep,
        FHEComputer.unboundCiphertexts_bound]
      rfl
    obtain ⟨comp', hrest, hr⟩ := ih hnext (hview.trans hk)
    refine ⟨comp', ?_, hr.sound, hr.view.trans hview, hr.proof, hr.output, hr.depth⟩
    rw [List.foldlM_cons, hbind]
    exact hrest

theorem bindEach_rebound (hkeep : KeepsContext enc) (datas : FHEComputer fhe → List Bytes)
    {comps : List (FHEComputer fhe)} {ks : List Computation}
    (hsound : ∀ comp ∈ comps, FHEComputer.Sound comp)
    (hks : comps.mapM FHEComputer.toComputation = .ok ks) :
    ∃ comps', comps.mapM (fun comp ↦ (datas comp).foldlM (FHEComputer.bindToData enc) comp) =
      .ok comps' ∧ comps'.mapM FHEComputer.toComputation = .ok ks ∧
      List.Forall₂ Rebound comps comps' := by
  induction comps generalizing ks with
  | nil => exact ⟨[], rfl, hks, .nil⟩
  | cons comp comps ih =>
    rw [List.mapM_cons, bind_eq_ok] at hks
    obtain ⟨k, hk, hks⟩ := hks
    obtain ⟨ks', hks', he⟩ := bind_eq_ok.mp hks
    cases he
    obtain ⟨comp', hbind, hr⟩ := bindAll_rebound hkeep (hsound comp (by simp)) hk (datas comp)
    obtain ⟨comps', hall, hviews, hrs⟩ := ih (fun c hc ↦ hsound c (by simp [hc])) hks'
    exact ⟨comp' :: comps', mapM_cons_ok hbind hall, mapM_cons_ok (hr.view.trans hk) hviews,
      .cons hr hrs⟩

theorem Deliverable.next (na : Sodium) (h : Deliverable b)
    {comps : List (FHEComputer fhe)} (hbound : List.Forall₂ Rebound (delivered b).2 comps)
    (hks : comps.mapM FHEComputer.toComputation = .ok b.1.header.computations) :
    Deliverable (linked (delivered b).1, comps) ∧
      SameOnWire na (delivered b) (linked (delivered b).1, comps) := by
  refine ⟨⟨rfl, h.transactions, fun comp hcomp ↦ ?_, hks⟩, ?_⟩
  · obtain ⟨_, -, hre⟩ := exists_of_forall₂ hbound.flip hcomp
    exact hre.sound
  · exact {
      hash := rfl
      bindingData := rfl
      serializations := rfl
      txids := rfl
      proofs := map_eq_of_forall₂ (hbound.imp fun _ _ h ↦ h.proof)
      outputs := map_eq_of_forall₂ (hbound.imp fun _ _ h ↦ h.output)
      difficulty := rfl
      difficulties := map_eq_of_forall₂ (hbound.imp fun _ _ h ↦ h.depth) }

theorem relay_ok (na : Sodium) (hr : Reads des) (hkeep : KeepsContext enc)
    (hops : List (FHEComputer fhe → List Bytes)) (h : Deliverable b) :
    ∃ b', relay des enc hops b = .ok b' ∧ SameOnWire na b b' := by
  have hsame := sameOnWire_delivered na h
  induction hops generalizing b with
  | nil => exact ⟨_, roundTrip_ok hr h, hsame⟩
  | cons datas hops ih =>
    obtain ⟨-, -, -, hks⟩ := computations_survive hr h.sound h.computations
    have hsound : ∀ comp ∈ (delivered b).2, FHEComputer.Sound comp := by
      intro comp hcomp
      obtain ⟨c, hc, rfl⟩ := List.mem_map.mp hcomp
      exact (h.sound c hc).unbound
    obtain ⟨comps, hbind, hviews, hbound⟩ := bindEach_rebound hkeep datas hsound hks
    obtain ⟨hnext, hsame'⟩ := h.next na hbound hviews
    obtain ⟨b', hrelay, hlast⟩ := ih hnext (sameOnWire_delivered na hnext)
    refine ⟨b', ?_, (hsame.trans hsame').trans hlast⟩
    exact bind_eq_ok.mpr ⟨_, roundTrip_ok hr h, bind_eq_ok.mpr ⟨comps, hbind, hrelay⟩⟩

end RoundTrip

end FheBlockchain.Chain.Wire
