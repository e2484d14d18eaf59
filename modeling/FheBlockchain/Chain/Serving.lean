import FheBlockchain.Chain.Sync
import FheBlockchain.Chain.WellFormed

namespace FheBlockchain.Chain.Serving

open Core.Transactions Core.Blocks Core.Messages Computer.Computations Computer.Messages Store.Pools
open Validation Manager AppendFacts Accepted ReorgFacts Placement Node Replay Wire Sync
open ValidationFacts (getHeader_ok)
open WellFormed (ChainsFormed Vouched formed_start post_handle_formed)
open Store.Chainstate hiding M addBlock
open Library.Execution Library.Results

variable {env : Env} {cfg : Config} {s t : ChainManager} {block genesis : Block}
variable {fhe : OpenFhe} {loaded : Block → List (FHEComputer fhe)}

/-- `none` is the empty answer. -/
def handleGetBlock (loaded : Block → List (FHEComputer fhe)) (s : ChainManager) (blockHash : Bytes) :
    Result (Option InfoBlock) :=
  match s.blockStore.lookup blockHash with
  | none => .ok none
  | some block => do return some ⟨← Block.toProto (block, loaded block), false⟩

/-- The height of the message is signed and gets compared as unsigned. -/
def handleSyncMessage (env : Env) (loaded : Block → List (FHEComputer fhe)) (s : ChainManager)
    (height : Int32) : Result InfoBlock := handleSyncBlock env loaded s height.toUInt32

structure Shows (b : Block) (comps : List (FHEComputer fhe)) (p : ProtoBlock) : Prop where
  prev : p.header.prevBlockHash = b.header.prevHash
  merkleRoot : p.header.merkleRoot = b.header.merkleRoot
  timestamp : p.header.timestamp = b.header.timestamp
  difficulty : p.header.difficulty = b.header.difficulty
  computations : comps.mapM FHEComputer.toProto = .ok p.header.computations
  transactions : p.transactions = b.transactions.map Transaction.toProto

section Encoding

theorem toProto_of_toComputation {comp : FHEComputer fhe} {k : Computation}
    (h : comp.toComputation = .ok k) : ∃ p, FHEComputer.toProto comp = .ok p := by
  obtain ⟨body, hbody, -⟩ := bind_eq_ok.mp h
  obtain ⟨cc, hcc, -⟩ := bind_eq_ok.mp hbody
  exact ⟨_, bind_eq_ok.mpr ⟨cc, hcc, rfl⟩⟩

theorem toProtos_of_toComputations {comps : List (FHEComputer fhe)} {ks : List Computation}
    (h : comps.mapM FHEComputer.toComputation = .ok ks) :
    ∃ ps, comps.mapM FHEComputer.toProto = .ok ps := by
  induction comps generalizing ks with
  | nil => exact ⟨[], rfl⟩
  | cons comp comps ih =>
    rw [List.mapM_cons, bind_eq_ok] at h
    obtain ⟨k, hk, h⟩ := h
    obtain ⟨ks', hks, -⟩ := bind_eq_ok.mp h
    obtain ⟨p, hp⟩ := toProto_of_toComputation hk
    obtain ⟨ps, hps⟩ := ih hks
    exact ⟨p :: ps, mapM_cons_ok hp hps⟩

theorem toProto_shows {comps : List (FHEComputer fhe)}
    (hload : comps.mapM FHEComputer.toComputation = .ok block.header.computations)
    (hprev : block.header.prevBlockHeader.isSome) :
    ∃ p, Block.toProto (block, comps) = .ok p ∧ Shows block comps p := by
  obtain ⟨prevh, hp⟩ := Option.isSome_iff_exists.mp hprev
  obtain ⟨ps, hps⟩ := toProtos_of_toComputations hload
  have hheader : BlockHeader.toProto block.header comps = .ok {
      prevBlockHash := prevh
      merkleRoot := block.header.merkleRoot
      timestamp := block.header.timestamp
      difficulty := block.header.difficulty
      computations := ps } := by
    rw [BlockHeader.toProto, hp]
    exact bind_eq_ok.mpr ⟨ps, hps, rfl⟩
  refine ⟨_, bind_eq_ok.mpr ⟨_, hheader, rfl⟩, ?_, rfl, rfl, rfl, hps, rfl⟩
  rw [BlockHeader.prevHash, hp]
  rfl

theorem toProto_unlinked {comps : List (FHEComputer fhe)}
    (hprev : block.header.prevBlockHeader = none) :
    Block.toProto (block, comps) = .error (.abort .nullPointer) := by
  rw [Block.toProto, BlockHeader.toProto, hprev]
  rfl

end Encoding

section Storing

/-- The genesis block is stored under its hash, every block under its own, and
every other block points to the header that it was linked to. -/
structure Linked (env : Env) (genesis : Block) (store : MemBlockStore) : Prop where
  first : store.lookup (genesis.hash env.toSodium) = some genesis
  hash : ∀ {k b}, store.lookup k = some b → k = b.hash env.toSodium
  linked : ∀ {k b}, store.lookup k = some b → b = genesis ∨ b.header.prevBlockHeader.isSome

theorem Linked.storeBlock {store : MemBlockStore} (h : Linked env genesis store)
    (head : BlockHeader) (block : Block) :
    Linked env genesis (store.storeBlock (block.hash env.toSodium) (link env head block)).1 := by
  refine ⟨?_, fun hk ↦ ?_, fun hk ↦ ?_⟩
  · exact grows_storeBlock store (block.hash env.toSodium) (link env head block) _ _ h.first
  · rcases storeBlock_cases hk with hold | ⟨-, rfl, rfl⟩
    · exact h.hash hold
    · rfl
  · rcases storeBlock_cases hk with hold | ⟨-, -, rfl⟩
    · exact h.linked hold
    · exact .inr rfl

theorem linked_start {wallet : Store.Coins.Wallet} :
    Linked env genesis (started env wallet genesis).blockStore := by
  refine ⟨by rw [started_lookup, if_pos rfl], fun {k b} hk ↦ ?_, fun {k b} hk ↦ ?_⟩
  all_goals
    rw [started_lookup] at hk
    split_ifs at hk with he
    obtain rfl := Option.some.inj hk
  · exact he
  · exact .inl rfl

end Storing

section Answers

variable {wallet : Store.Coins.Wallet}

theorem genesis_unlinked
    (h : Block.genesis env.toSodium cfg.timestamp cfg.difficulty cfg.publicKey cfg.reward =
      .ok genesis) : genesis.header.prevBlockHeader = none := by
  obtain ⟨txids, -, he⟩ := bind_eq_ok.mp h
  cases he
  rfl

/-- The genesis block is the one stored block that has no message. -/
theorem toProto_iff {store : MemBlockStore} {k : Bytes} {b : Block}
    (hgen : genesis.header.prevBlockHeader = none) (h : Linked env genesis store)
    (hk : store.lookup k = some b)
    (hload : (loaded b).mapM FHEComputer.toComputation = .ok b.header.computations) :
    (∃ p, Block.toProto (b, loaded b) = .ok p ∧ Shows b (loaded b) p) ↔
      k ≠ genesis.hash env.toSodium := by
  constructor
  · rintro ⟨p, hp, -⟩ rfl
    obtain rfl := Option.some.inj (h.first.symm.trans hk)
    rw [toProto_unlinked hgen] at hp
    contradiction
  · intro hne
    refine toProto_shows hload ((h.linked hk).resolve_left ?_)
    rintro rfl
    exact hne (h.hash hk)

theorem handleGetBlock_iff {k : Bytes} {b : Block} {p : ProtoBlock}
    (hk : t.blockStore.lookup k = some b) :
    handleGetBlock loaded t k = .ok (some ⟨p, false⟩) ↔ Block.toProto (b, loaded b) = .ok p := by
  have hinj : Function.Injective fun p : ProtoBlock ↦ some (InfoBlock.mk p false) := by
    intro p q h
    cases h
    rfl
  rw [handleGetBlock, hk]
  exact bind_pure_eq_ok hinj

theorem handleSyncMessage_iff {height : Int32} {header : BlockHeader} {b : Block} {p : ProtoBlock}
    (hle : ¬ currentHeight t.mainChain.headerChain < height.toUInt32)
    (hat : getHeader t.mainChain.headerChain height.toUInt32 = .ok header)
    (hb : t.blockStore.lookup (header.hash env.toSodium) = some b) :
    handleSyncMessage env loaded t height = .ok ⟨p, false⟩ ↔
      Block.toProto (b, loaded b) = .ok p := by
  have hinj : Function.Injective fun p : ProtoBlock ↦ InfoBlock.mk p false := by
    intro p q h
    cases h
    rfl
  rw [handleSyncMessage, handleSyncBlock_ok (requestedBlock_ok hle hat hb)]
  exact bind_pure_eq_ok hinj

end Answers

section Sample

open Delivery (sampleLoaded)
open HeaderEncoding (byteFhe)

def sampleHeld (b : Block) : List (FHEComputer byteFhe) :=
  if b.header.computations = [] then [] else sampleLoaded.2

theorem sampleHeld_answering : (sampleHeld (answering sampleGenesis 1)).mapM
    FHEComputer.toComputation = .ok (answering sampleGenesis 1).header.computations := by
  have hsome : ¬ (answering sampleGenesis 1).header.computations = [] := by decide +kernel
  have hok : sampleLoaded.2.mapM FHEComputer.toComputation =
      .ok sampleLoaded.1.header.computations := by decide +kernel
  rw [sampleHeld, if_neg hsome, hok]
  rfl

end Sample

end FheBlockchain.Chain.Serving
