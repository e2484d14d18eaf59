import FheBlockchain.Chain.HeaderEncoding
import FheBlockchain.Chain.Replay
import FheBlockchain.Chain.Wire

namespace FheBlockchain.Chain.Delivery

open Core.Transactions Core.Blocks Core.Messages Computer.Computations Computer.Binding
open Computer.Messages Store.Pools Validation Manager AppendFacts Accepted ReorgFacts Placement Node
open Replay Wire HeaderEncoding
open Store.Chainstate hiding M addBlock
open Store.Coins hiding M
open Library.Execution Library.Results

variable {env : Env} {cfg : Config} {s t : ChainManager} {block genesis : Block}
variable {fhe : OpenFhe} {des : Deserialize fhe} {enc : Encryption fhe}

structure Linkable (block : Block) : Prop where
  prev : block.header.prevBlockHeader = none ∨
    block.header.prevBlockHeader = some block.header.arrivedPrevHash
  transactions : Sendable block.transactions

structure Attached (block : Block) : Prop where
  prev : block.header.prevBlockHeader = some block.header.arrivedPrevHash
  transactions : Sendable block.transactions

def StoreSendable (genesis : Block) (store : MemBlockStore) : Prop :=
  ∀ k b, store.lookup k = some b → b = genesis ∨ Attached b

theorem Attached.linkable (h : Attached block) : Linkable block := ⟨.inr h.prev, h.transactions⟩

theorem Linkable.attached {head : BlockHeader} (h : Linkable block)
    (hprev : block.header.prevHash = head.hash env.toSodium) : Attached (link env head block) := by
  refine ⟨?_, h.transactions⟩
  have harrived : block.header.prevHash = block.header.arrivedPrevHash := by
    rcases h.prev with hp | hp <;> rw [BlockHeader.prevHash, hp] <;> rfl
  rw [harrived] at hprev
  exact congrArg some hprev.symm

theorem genesis_linkable
    (h : Block.genesis env.toSodium cfg.timestamp cfg.difficulty cfg.publicKey cfg.reward =
      .ok genesis) : Linkable genesis := by
  have htxs := (genesis_ok h).1
  obtain ⟨txids, -, he⟩ := bind_eq_ok.mp h
  cases he
  exact ⟨.inl rfl, Transaction.sendable_coinbase _ _ _, by simp⟩

theorem StoreSendable.storeBlock {store : MemBlockStore} {b : Block}
    (h : StoreSendable genesis store) (hb : Attached b) (hash : Bytes) :
    StoreSendable genesis (store.storeBlock hash b).1 := by
  intro k b' hk
  rcases storeBlock_cases hk with hold | ⟨-, -, rfl⟩
  · exact h k b' hold
  · exact .inr hb

theorem post_append_sendable {v : Option (List (List UInt64))}
    (h : StoreSendable genesis s.blockStore) (hb : Linkable block) :
    Post (appendBlock env cfg block v) s (fun _ t ↦ StoreSendable genesis t.blockStore)
      (fun _ t ↦ StoreSendable genesis t.blockStore) := by
  exact post_append_store (fun _ _ hr ↦ h.storeBlock (hb.attached hr.attaches) _) h

def FromMiner (env : Env) (block : Block) : Prop :=
  ∃ prev difficulty comps now pubkey amount height txs mined proved,
    Block.mined env.toSodium prev difficulty comps now
      (coinbaseTransaction pubkey amount height :: txs) = .ok mined ∧
    (∀ tx ∈ txs, Transaction.Sendable false tx) ∧
    block = { mined with header := { mined.header with computations := proved } }

/-- Received blocks have been read from messages, and none of them goes to a fork
without headers, which takes a block whatever header it names. -/
def Sent (des : Deserialize fhe) (env : Env) : ChainManager → Event → Prop
  | s, .block block none => (∃ p comps, Block.fromProto des p = .ok (block, comps)) ∧
      ∀ k fork, OffMain env s block none →
        findFork env block.header 0 s.forks = some (k, fork) → fork.headerChain ≠ []
  | _, .block block (some _) => FromMiner env block
  | _, _ => True

theorem linkable_of_fromProto {p : ProtoBlock} {comps : List (FHEComputer fhe)}
    (h : Block.fromProto des p = .ok (block, comps)) : Linkable block := by
  obtain ⟨⟨header, comps'⟩, hheader, h⟩ := bind_eq_ok.mp h
  obtain ⟨txs, htxs, he⟩ := bind_eq_ok.mp h
  obtain ⟨comps'', -, hheader⟩ := bind_eq_ok.mp hheader
  obtain ⟨ks, -, hheader⟩ := bind_eq_ok.mp hheader
  cases he
  cases hheader
  exact ⟨.inl rfl, sendable_of_fromProto htxs⟩

theorem linkable_of_miner (h : FromMiner env block) : Linkable block := by
  obtain ⟨prev, difficulty, comps, now, pubkey, amount, height, txs, mined, proved, hmined, htxs,
    rfl⟩ := h
  obtain ⟨txids, -, he⟩ := bind_eq_ok.mp hmined
  cases he
  refine ⟨.inr ?_, Transaction.sendable_coinbase _ _ _, htxs⟩
  have hne : prev.hash env.toSodium ≠ [] := by
    intro hnil
    have hlen := congrArg List.length hnil
    simp [BlockHeader.hash] at hlen
  simp [BlockHeader.arrivedPrevHash, hne]

theorem prevHash_of_fork {header : BlockHeader} {fork : Fork}
    (h : canAttach env fork.headerChain header = true) (hne : fork.headerChain ≠ []) :
    header.prevHash = fork.head.hash env.toSodium := by
  rw [canAttach] at h
  rw [Fork.head, List.getLastD_eq_getLast?]
  cases hlast : fork.headerChain.getLast? with
  | none => exact absurd (List.getLast?_eq_none_iff.mp hlast) hne
  | some back =>
    rw [hlast] at h
    simpa using h

theorem post_handle_sendable (hgen : Linkable genesis) (h : StoreSendable genesis s.blockStore)
    {event : Event} (hsent : Sent des env s event) :
    Post (handle env cfg event) s (fun _ t ↦ StoreSendable genesis t.blockStore)
      (fun _ t ↦ StoreSendable genesis t.blockStore) := by
  cases event with
  | tx tx =>
    refine (addTx_sameChains s tx).mono (fun _ t ht ↦ ?_) fun _ t ht ↦ ?_
    · rw [ht.blockStore]
      exact h
    · rw [ht.blockStore]
      exact h
  | computation comp =>
    refine (addComputation_sameChains s comp).mono (fun _ t ht ↦ ?_) fun _ t ht ↦ ?_
    · rw [ht.blockStore]
      exact h
    · rw [ht.blockStore]
      exact h
  | block block mined =>
    have hb : Linkable block := by
      cases mined with
      | none =>
        obtain ⟨⟨p, comps, hp⟩, -⟩ := hsent
        exact linkable_of_fromProto hp
      | some amounts => exact linkable_of_miner hsent
    refine post_addBlock (Q := fun t ↦ StoreSendable genesis t.blockStore) h (fun _ _ _ ht ↦ ht)
      (fun _ ↦ (post_append_sendable h hb).mono (fun _ _ ht _ ↦ ht) fun _ _ ht ↦ ht)
      (fun k fork hoff hfind _ ↦ ?_) fun i src total _ _ hatt _ ↦ ?_
    · obtain ⟨rfl, -⟩ := id hoff
      have hprev := prevHash_of_fork (findFork_some hfind).2.2 (hsent.2 k fork hoff hfind)
      have hstored : StoreSendable genesis (withStored env s (link env fork.head block)).blockStore :=
        h.storeBlock (hb.attached hprev) _
      refine ⟨fun _ ↦ hstored, fun _ ↦ post_reorg_store (fun t k b ht hk ↦ ?_) hstored⟩
      rcases ht k b hk with rfl | hb'
      · exact post_append_sendable ht hgen
      · exact post_append_sendable ht hb'.linkable
    · exact h.storeBlock (hb.attached (findAttachment_some hatt).2.2) _

structure Loads (des : Deserialize fhe) (enc : Encryption fhe) (b : Block)
    (comps : List (FHEComputer fhe)) : Prop where
  produced : ∀ comp ∈ comps, FHEComputer.Produced des enc comp
  computations : comps.mapM FHEComputer.toComputation = .ok b.header.computations
  complete : ∀ comp ∈ comps, comp.lastRes.isSome ∧ comp.proof ≠ []

theorem loads_of_fromProto {p : ProtoBlock} {comps : List (FHEComputer fhe)}
    (h : Block.fromProto des p = .ok (block, comps))
    (hcomplete : ∀ comp ∈ comps, comp.lastRes.isSome ∧ comp.proof ≠ []) :
    Loads des enc block comps := by
  obtain ⟨⟨header, comps'⟩, hheader, h⟩ := bind_eq_ok.mp h
  obtain ⟨txs, -, he⟩ := bind_eq_ok.mp h
  obtain ⟨comps'', hcomps, hheader⟩ := bind_eq_ok.mp hheader
  obtain ⟨ks, hks, hheader⟩ := bind_eq_ok.mp hheader
  cases he
  cases hheader
  refine ⟨fun comp hcomp ↦ ?_, hks, hcomplete⟩
  obtain ⟨q, -, hq⟩ := exists_of_forall₂ (forall₂_mapM hcomps).flip hcomp
  exact .proto hq

/-- Every stored block but the first one survives the wire, from node to node. -/
theorem blocks_survive {wallet : Wallet} (hr : Reads des) (hkeep : KeepsContext enc)
    (hs : create env cfg wallet = .ok s) (hrun : Run env cfg (Sent des env) s t) :
    ∃ genesis, Block.genesis env.toSodium cfg.timestamp cfg.difficulty cfg.publicKey cfg.reward =
        .ok genesis ∧
      ∀ k b comps hops, t.blockStore.lookup k = some b → b ≠ genesis → Loads des enc b comps →
        ∃ b', relay des enc hops (b, comps) = .ok b' ∧ SameOnWire env.toSodium (b, comps) b' := by
  obtain ⟨genesis, hgen, rfl⟩ := create_ok hs
  have hlinkable := genesis_linkable hgen
  refine ⟨genesis, hgen, fun k b comps hops hk hne hcomps ↦ ?_⟩
  have hstore : StoreSendable genesis t.blockStore := by
    refine hrun.invariant (I := fun t ↦ StoreSendable genesis t.blockStore) (fun k b hk ↦ ?_)
      fun _ _ h hsent ↦ post_handle_sendable hlinkable h hsent
    rw [started_lookup] at hk
    split_ifs at hk
    exact .inl (Option.some.inj hk).symm
  obtain rfl | hb := hstore k b hk
  · exact absurd rfl hne
  · exact relay_ok env.toSodium hr hkeep hops ⟨hb.prev, hb.transactions,
      fun comp hcomp ↦ (hcomps.produced comp hcomp).sound hkeep, hcomps.computations⟩

section Sample

def byteDes : Deserialize byteFhe where
  publicKey _ := .ok ()
  ciphertext
    | [c] => .ok c
    | _ => .error (invalidArgument "ciphertext")
  evalMultKey _ _ := .ok ()

def byteEnc : Encryption byteFhe where
  encryptZeroDeterministic _ _ seed := seed.headD 0
  evalAdd _ (a b : UInt8) := a + b

theorem byteDes_reads : Reads byteDes := ⟨fun _ ↦ rfl, fun _ ↦ rfl, fun _ ↦ rfl, fun _ ↦ by simp [byteFhe]⟩

def sampleMessage : ProtoBlock where
  header := {
    prevBlockHash := sampleGenesis.hash sampleEnv.toSodium
    merkleRoot := firstBlock.header.merkleRoot
    timestamp := 1
    difficulty := 1
    computations := [{
      expression := [48, 42, 48]
      publicKey := [1, 2]
      ciphertexts := [[7]]
      timestamp := 3
      evalmultKey := []
      output := [9]
      proof := [1] }] }
  transactions := firstBlock.transactions.map Transaction.toProto

def sampleLoaded : Loaded byteFhe :=
  (Block.fromProto byteDes sampleMessage).toOption.getD (sampleGenesis, [])

theorem sampleLoaded_read : Block.fromProto byteDes sampleMessage = .ok sampleLoaded := by
  have hok : (Block.fromProto byteDes sampleMessage).isOk = true := by decide +kernel
  rw [sampleLoaded]
  cases h : Block.fromProto byteDes sampleMessage with
  | ok b => rfl
  | error e =>
    rw [h] at hok
    exact absurd hok Bool.false_ne_true

theorem sampleLoaded_stored : ∃ t k b, Run sampleEnv sampleConfig (Sent byteDes sampleEnv)
    sampleStart t ∧ t.blockStore.lookup k = some b ∧ b ≠ sampleGenesis ∧
    Loads byteDes byteEnc b sampleLoaded.2 := by
  have hok : returns (handle sampleEnv sampleConfig (.block sampleLoaded.1 none)) sampleStart
      (fun _ t ↦ t.blockStore.lookup (sampleLoaded.1.hash sampleEnv.toSodium) =
        some (link sampleEnv sampleGenesis.header sampleLoaded.1)) = true := by decide +kernel
  have hne : link sampleEnv sampleGenesis.header sampleLoaded.1 ≠ sampleGenesis := by
    decide +kernel
  have hcomplete : ∀ comp ∈ sampleLoaded.2, comp.lastRes.isSome ∧ comp.proof ≠ [] := by
    decide +kernel
  have hattach : canAttach sampleEnv sampleStart.mainChain.headerChain
      sampleLoaded.1.header = true := by decide +kernel
  obtain ⟨added, t, ht, hstored⟩ := returns_iff.mp hok
  have hsent : Sent byteDes sampleEnv sampleStart (.block sampleLoaded.1 none) :=
    ⟨⟨_, _, sampleLoaded_read⟩, fun k fork hoff _ ↦
      absurd (hattach.symm.trans hoff.2) (by simp)⟩
  have hloads := @loads_of_fromProto _ _ byteDes byteEnc _ _ sampleLoaded_read hcomplete
  exact ⟨t, _, _, .step .start hsent (.inl ⟨added, ht⟩), of_decide_eq_true hstored, hne,
    hloads.produced, hloads.computations, hloads.complete⟩

theorem blocks_survive_sample : ∃ b b',
    relay byteDes byteEnc [fun _ ↦ [[1], [2]]] (b, sampleLoaded.2) = .ok b' ∧
      SameOnWire sampleEnv.toSodium (b, sampleLoaded.2) b' := by
  obtain ⟨t, k, b, hrun, hk, hne, hloads⟩ := sampleLoaded_stored
  obtain ⟨genesis, hgen, hall⟩ := blocks_survive byteDes_reads (fun _ _ _ ↦ rfl) create_sample hrun
  obtain rfl := Except.ok.inj (genesis_sample.symm.trans hgen)
  obtain ⟨b', hb'⟩ := hall k b _ [fun _ ↦ [[1], [2]]] hk hne hloads
  exact ⟨b, b', hb'⟩

def roundTrips (des : Deserialize fhe) : ℕ → Loaded fhe → Result (Loaded fhe)
  | 0, b => .ok b
  | n + 1, b => do roundTrips des n (← roundTrip des b)

theorem second_roundTrip (b : Loaded fhe) : (roundTrips des 2 b).isOk = false := by
  have hone {b b' : Loaded fhe} (h : roundTrip des b = .ok b') :
      b'.1.header.prevBlockHeader = none := by
    obtain ⟨p, -, h⟩ := bind_eq_ok.mp h
    obtain ⟨⟨header, comps⟩, hheader, h⟩ := bind_eq_ok.mp h
    obtain ⟨txs, -, he⟩ := bind_eq_ok.mp h
    obtain ⟨comps', -, hheader⟩ := bind_eq_ok.mp hheader
    obtain ⟨ks, -, hheader⟩ := bind_eq_ok.mp hheader
    cases he
    cases hheader
    rfl
  cases h : roundTrips des 2 b with
  | error e => rfl
  | ok c =>
    obtain ⟨b₁, h₁, h⟩ := bind_eq_ok.mp h
    obtain ⟨b₂, h₂, -⟩ := bind_eq_ok.mp h
    obtain ⟨p, hp, -⟩ := bind_eq_ok.mp h₂
    obtain ⟨header, hheader, -⟩ := bind_eq_ok.mp hp
    rw [BlockHeader.toProto, hone h₁] at hheader
    contradiction

theorem decoded_block_not_sent :
    ¬ ∀ (fhe : OpenFhe) (des : Deserialize fhe) (enc : Encryption fhe) (env : Env) (cfg : Config)
      (wallet : Wallet) (s t : ChainManager) (genesis : Block),
      Reads des → KeepsContext enc → create env cfg wallet = .ok s →
      Block.genesis env.toSodium cfg.timestamp cfg.difficulty cfg.publicKey cfg.reward =
        .ok genesis → Run env cfg (Sent des env) s t →
      ∀ k b comps n, t.blockStore.lookup k = some b → b ≠ genesis → Loads des enc b comps →
        ∃ b', roundTrips des n (b, comps) = .ok b' ∧
          SameOnWire env.toSodium (b, comps) b' := by
  intro h
  obtain ⟨t, k, b, hrun, hk, hne, hloads⟩ := sampleLoaded_stored
  obtain ⟨b', hb', -⟩ := h _ byteDes byteEnc sampleEnv sampleConfig _ _ t _ byteDes_reads
    (fun _ _ _ ↦ rfl) create_sample genesis_sample hrun k b _ 2 hk hne hloads
  have hsecond := @second_roundTrip _ byteDes (b, sampleLoaded.2)
  rw [hb'] at hsecond
  exact absurd hsecond.symm Bool.false_ne_true

end Sample

end FheBlockchain.Chain.Delivery
