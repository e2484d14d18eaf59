import FheBlockchain.Chain.Routing

namespace FheBlockchain.Chain.RoutingFacts

open Core.Transactions Core.Blocks Core.Messages Computer.Computations Computer.Messages Store.Pools
open Validation Manager Accepted Exceptions Placement Wire Routing Replay AppendFacts
open Node (addTx addComputation handle Leads)
open ReorgFacts (post_reorg_store)
open WellFormed (Vouched ChainsFormed formed_start post_handle_formed has_storeBlock)
open Library.Execution Library.Transitions

variable {fhe : OpenFhe} {p : Setup fhe} {s t u : ChainManager}

section Storing

variable {block : Block}

def HasBlock (s : ChainManager) (hash : Bytes) : Prop := (s.blockStore.lookup hash).isSome

theorem post_appendAndUpdate_stored {env : Env} {cfg : Config} :
    Post (appendAndUpdate env cfg block none) s
      (fun added t ↦ added = true → HasBlock t (block.hash env.toSodium)) fun _ _ ↦ True := by
  have happend : Post (appendBlock env cfg block none) s
      (fun added t ↦ added = true → HasBlock t (block.hash env.toSodium)) fun _ _ ↦ True :=
    post_append_identified (by simp) (by simp) (fun _ _ ↦ trivial) fun head txs cs pool _ ↦
      ⟨fun _ ↦ has_storeBlock (link env head block), fun _ _ ↦ trivial⟩
  refine happend.bind fun added t ht ↦ ?_
  cases added with
  | false => exact fun h ↦ absurd h (by simp)
  | true =>
    refine Post.bind (R := fun _ u ↦ HasBlock u (block.hash env.toSodium)) ?_ fun _ u hu _ ↦ hu
    refine Post.bind (R := fun _ u ↦ HasBlock u (block.hash env.toSodium)) ?_ fun _ u hu ↦ hu
    exact post_focus ((post_true _ _).mono (fun _ _ _ ↦ ht rfl) fun _ _ _ ↦ trivial)

theorem post_reorg_hasBlock {env : Env} {cfg : Config} {k : ℕ} {fork : Fork} {hash : Bytes}
    (h : HasBlock s hash) :
    Post (reorg env cfg k fork) s (fun _ t ↦ HasBlock t hash) fun _ t ↦ HasBlock t hash :=
  post_reorg_store (P := fun store ↦ (store.lookup hash).isSome)
    (fun _ _ _ ht _ ↦ post_append_store (P := fun store ↦ (store.lookup hash).isSome)
      (fun _ _ _ ↦ (grows_storeBlock _ _ _).isSome ht) ht) h

theorem post_addBlock_stored {env : Env} {cfg : Config} :
    Post (addBlock env cfg block none) s
      (fun added t ↦ added = true → HasBlock t (block.hash env.toSodium)) fun _ _ ↦ True := by
  have hstored (head : BlockHeader) :
      HasBlock (withStored env s (link env head block)) (block.hash env.toSodium) :=
    has_storeBlock (link env head block)
  rw [addBlock]
  refine post_bind_get.mpr ?_
  simp only [Option.isSome_none, Bool.false_eq_true, if_false]
  split_ifs
  · exact post_appendAndUpdate_stored
  · cases hfind : findFork env block.header 0 s.forks with
    | some r =>
      obtain ⟨k, fork⟩ := r
      refine Post.bind (post_forkAppend (findFork_some hfind).2.2
        (Q := fun r t ↦ r.2 = true → HasBlock t (block.hash env.toSodium)) (by simp)
        (fun _ _ ↦ trivial) fun _ _ ↦ hstored fork.head) ?_
      rintro ⟨fork', added⟩ t ht
      cases added with
      | false => exact fun h ↦ absurd h (by simp)
      | true =>
        have hset : HasBlock { t with forks := t.forks.set k fork' } (block.hash env.toSodium) := ht rfl
        refine post_bind_modify.mpr (post_bind_get.mpr ?_)
        dsimp only
        split_ifs
        · refine Post.bind (R := fun _ u ↦ HasBlock u (block.hash env.toSodium)) ?_ fun _ u hu ↦ ?_
          · exact (post_reorg_hasBlock hset).mono (fun _ _ hu ↦ hu) fun _ _ _ ↦ trivial
          · exact fun _ ↦ hu
        · exact fun _ ↦ hset
    | none =>
      refine post_bind_get.mpr ?_
      cases hatt : findAttachment env block.header 0 0 s.mainChain.headerChain with
      | none => exact fun h ↦ absurd h (by simp)
      | some r =>
        obtain ⟨i, src, total⟩ := r
        have happend : Post ((newFork i src total).appendBlock env cfg block) s
            (fun r t ↦ r.2 = true → HasBlock t (block.hash env.toSodium)) fun _ _ ↦ True :=
          post_forkAppend rfl (by simp) (fun _ _ ↦ trivial) fun _ _ ↦ hstored src
        refine happend.bind ?_
        rintro ⟨fork', added⟩ t ht
        cases added with
        | false => exact fun h ↦ absurd h (by simp)
        | true => exact fun _ ↦ ht rfl

end Storing

section Events

def carried (p : Setup fhe) : Message → Option Node.Event
  | .infoBlock msg => (Block.fromProto p.des msg.block).toOption.map fun b ↦ .block b.1 none
  | .infoTransaction tx => (Transaction.fromProto tx false).toOption.map .tx
  | .infoComputation comp => (readComputation p comp).toOption.map .computation
  | _ => none

def acted : Action fhe → Option Node.Event
  | .sayHello => none
  | .transaction tx => some (.tx tx)
  | .computation comp => comp.toComputation.toOption.map .computation
  | .minedBlock block amounts => some (.block block (some amounts))

def Moves (p : Setup fhe) (event : Option Node.Event) (s t : ChainManager) : Prop :=
  t = s ∨ ∃ e ∈ event, Leads (handle p.env p.cfg e) s t

theorem post_leads {α : Type} (x : M α) (s : ChainManager) :
    Post x s (fun _ ↦ Leads x s) fun _ ↦ Leads x s := by
  rw [Post]
  split
  next a t h => exact .inl ⟨a, h⟩
  next e t h => exact .inr ⟨e, h⟩
  next => trivial

theorem post_handle {event : Option Node.Event} {e : Node.Event} (h : e ∈ event) :
    Post (handle p.env p.cfg e) s (fun _ ↦ Moves p event s) fun _ ↦ Moves p event s :=
  (post_leads _ s).mono (fun _ _ ht ↦ .inr ⟨e, h, ht⟩) fun _ _ ht ↦ .inr ⟨e, h, ht⟩

theorem Moves.refl {event : Option Node.Event} : Moves p event s s := .inl rfl

inductive Routed (p : Setup fhe) (s : ChainManager) : Message → Reaction → ChainManager → Prop
  | silent {msg : Message} {t : ChainManager} :
      Moves p (carried p msg) s t → Routed p s msg .silent t
  | hello : Routed p s .hello (.respond .invalid) s
  | askBlock {hash : Bytes} :
      ¬ HasBlock s hash → Routed p s (.invBlock hash) (.respond (.getBlock hash)) s
  | sendBlock {hash : Bytes} (msg : Sync.InfoBlock) :
      Routed p s (.getBlock hash) (.respond (.infoBlock msg)) s
  | sendSync {height : Int32} (msg : Sync.InfoBlock) :
      Routed p s (.syncBlock height) (.respond (.infoBlock msg)) s
  | takeBlock {msg : Sync.InfoBlock} {hash : Bytes} {t : ChainManager} :
      Moves p (carried p (.infoBlock msg)) s t → ¬ HasBlock s hash → HasBlock t hash →
      Routed p s (.infoBlock msg) (.broadcast [.invBlock hash]) t
  | takeSync {msg : Sync.InfoBlock} {t : ChainManager} (height : Int32) :
      Moves p (carried p (.infoBlock msg)) s t →
      Routed p s (.infoBlock msg) (.toSync (.syncBlock height) false) t
  | synced {msg : Sync.InfoBlock} :
      Routed p s (.infoBlock msg) (.toSync .syncTransactions true) s
  | askTransaction {txid : Bytes} :
      Routed p s (.invTransaction txid) (.respond (.getTransaction txid)) s
  | sendTransaction {txid : Bytes} (tx : ProtoTransaction) :
      Routed p s (.getTransaction txid) (.respond (.infoTransaction tx)) s
  | takeTransaction {tx : ProtoTransaction} {t : ChainManager} (txid : Bytes) :
      Moves p (carried p (.infoTransaction tx)) s t →
      Routed p s (.infoTransaction tx) (.broadcast [.invTransaction txid]) t
  | askComputation {hash : Bytes} :
      Routed p s (.invComputation hash) (.respond (.getComputation hash)) s
  | sendComputation {hash : Bytes} (comp : ProtoComputation) :
      Routed p s (.getComputation hash) (.respond (.infoComputation comp)) s
  | takeComputation {comp : ProtoComputation} {t : ChainManager} (hash : Bytes) :
      Moves p (carried p (.infoComputation comp)) s t →
      Routed p s (.infoComputation comp) (.broadcast [.invComputation hash]) t
  | listPool (txids : List Bytes) :
      Routed p s .syncTransactions (.respond (.listTransactions txids)) s
  | askAll {txids : List Bytes} :
      Routed p s (.listTransactions txids) (.broadcast (txids.map .getTransaction)) s

theorem Routed.moves {msg : Message} {r : Reaction} (h : Routed p s msg r t) :
    Moves p (carried p msg) s t := by
  cases h <;> first | assumption | exact .refl

variable {β : Type} {event : Option Node.Event} {Q : β → ChainManager → Prop}

theorem post_read {α : Type} {r : Result α} {f : α → M β}
    (hf : ∀ a, r = .ok a → Post (f a) s Q fun _ ↦ Moves p event s) :
    Post (Exec.ofExcept r >>= f) s Q fun _ ↦ Moves p event s :=
  post_bind_ofExcept hf fun _ _ ↦ .refl

theorem post_handleInfoBlock (msg : Sync.InfoBlock) :
    Post (Routing.handleInfoBlock p msg) s (fun r t ↦ Routed p s (.infoBlock msg) r t)
      fun _ ↦ Moves p (carried p (.infoBlock msg)) s := by
  have hadd : Post (Sync.handleInfoBlock p.env p.cfg p.des msg) s
      (fun added t ↦ Moves p (carried p (.infoBlock msg)) s t ∧
        (added = true → ∀ b, Block.fromProto p.des msg.block = .ok b →
          ¬ HasBlock s (b.1.hash p.env.toSodium) ∧ HasBlock t (b.1.hash p.env.toSodium)))
      fun _ ↦ Moves p (carried p (.infoBlock msg)) s := by
    refine post_read fun b hb ↦ post_read fun hash hhash ↦ post_bind_get.mpr ?_
    rw [Sync.eq_hash_of_computeHash hhash]
    split_ifs with hstored
    · exact ⟨.refl, fun h ↦ absurd h (by simp)⟩
    · have hmem : .block b.1 none ∈ carried p (.infoBlock msg) := by
        rw [carried, hb]
        rfl
      have hmoves := @post_handle _ p s _ _ hmem
      refine (hmoves.and post_addBlock_stored).mono (fun added t ht ↦ ⟨ht.1, fun h b' hb' ↦ ?_⟩)
        fun _ _ ht ↦ ht.1
      obtain rfl := Except.ok.inj (hb.symm.trans hb')
      exact ⟨hstored, ht.2 h⟩
  refine hadd.bind fun added t ht ↦ ?_
  cases added with
  | false => exact .silent ht.1
  | true =>
    refine post_bind_ofExcept (fun b hb ↦ ?_) fun _ _ ↦ ht.1
    exact .takeBlock ht.1 (ht.2 rfl b hb).1 (ht.2 rfl b hb).2

theorem post_handleInfoBlockSync (msg : Sync.InfoBlock) :
    Post (Routing.handleInfoBlockSync p msg) s (fun r t ↦ Routed p s (.infoBlock msg) r t)
      fun _ ↦ Moves p (carried p (.infoBlock msg)) s := by
  have hadd : Post (Sync.handleInfoBlockSync p.env p.cfg p.des msg) s
      (fun reply t ↦ (reply = .synced ∧ t = s) ∨
        reply ≠ .synced ∧ Moves p (carried p (.infoBlock msg)) s t)
      fun _ ↦ Moves p (carried p (.infoBlock msg)) s := by
    rw [Sync.handleInfoBlockSync]
    split_ifs
    · exact .inl ⟨rfl, rfl⟩
    · refine post_read fun b hb ↦ post_read fun hash _ ↦ post_bind_get.mpr ?_
      split_ifs
      · exact .inr ⟨by simp, .refl⟩
      · refine (post_handle (e := .block b.1 none) (by rw [carried, hb]; rfl)).bind fun added t ht ↦ ?_
        cases added with
        | false => exact .inr ⟨by simp, ht⟩
        | true => exact .inr ⟨by simp, ht⟩
  refine hadd.bind fun reply t ht ↦ ?_
  rcases ht with ⟨rfl, rfl⟩ | ⟨hne, ht⟩
  · exact .synced
  · cases reply with
    | none => exact .silent ht
    | synced => exact absurd rfl hne
    | request height => exact .takeSync _ ht

theorem post_handleInfoTx (tx : ProtoTransaction) :
    Post (handleInfoTx p tx) s (fun r t ↦ Routed p s (.infoTransaction tx) r t)
      fun _ ↦ Moves p (carried p (.infoTransaction tx)) s := by
  refine post_read fun t ht ↦ post_read fun txid _ ↦ post_bind_get.mpr ?_
  split_ifs
  · exact .silent .refl
  · refine (post_handle (e := .tx t) (by rw [carried, ht]; rfl)).bind fun added u hu ↦ ?_
    cases added with
    | false => exact .silent hu
    | true => exact .takeTransaction txid hu

theorem post_handleInfoComputation (comp : ProtoComputation) :
    Post (handleInfoComputation p comp) s (fun r t ↦ Routed p s (.infoComputation comp) r t)
      fun _ ↦ Moves p (carried p (.infoComputation comp)) s := by
  refine post_read fun c hc ↦ post_bind_get.mpr ?_
  split_ifs
  · exact .silent .refl
  · refine (post_handle (e := .computation c) (by rw [carried, hc]; rfl)).bind fun added u hu ↦ ?_
    cases added with
    | false => exact .silent hu
    | true => exact .takeComputation _ hu

theorem post_route (isSynced : Bool) (msg : Message) :
    Post (route p isSynced msg) s (fun r t ↦ Routed p s msg r t)
      fun _ ↦ Moves p (carried p msg) s := by
  cases msg with
  | hello => exact .hello
  | invalid => exact .silent .refl
  | listTransactions txids => exact .askAll
  | invBlock hash =>
    refine post_bind_get.mpr ?_
    split_ifs with hstored
    · exact .silent .refl
    · exact .askBlock hstored
  | invTransaction hash =>
    refine post_bind_get.mpr ?_
    split_ifs
    · exact .silent .refl
    · exact .askTransaction
  | invComputation hash =>
    refine post_bind_get.mpr ?_
    split_ifs
    · exact .silent .refl
    · exact .askComputation
  | getBlock hash =>
    refine post_bind_get.mpr (post_read fun msg _ ↦ ?_)
    cases msg with
    | none => exact .silent .refl
    | some msg => exact .sendBlock msg
  | infoBlock msg =>
    cases isSynced with
    | true => exact post_handleInfoBlock msg
    | false => exact post_handleInfoBlockSync msg
  | syncBlock height => exact post_bind_get.mpr (post_read fun msg _ ↦ .sendSync msg)
  | getTransaction txid =>
    refine post_bind_get.mpr ?_
    split
    · exact .silent .refl
    · exact .sendTransaction _
  | infoTransaction tx => exact post_handleInfoTx tx
  | getComputation hash =>
    refine post_bind_get.mpr ?_
    split
    · exact .silent .refl
    · exact post_read fun comp _ ↦ .sendComputation comp
  | infoComputation comp => exact post_handleInfoComputation comp
  | syncTransactions => exact post_bind_get.mpr (.listPool _)

theorem post_act (action : Action fhe) :
    Post (act p action) s (fun _ ↦ Moves p (acted action) s) fun _ ↦ Moves p (acted action) s := by
  cases action with
  | sayHello => exact .refl
  | transaction tx =>
    refine (post_handle (e := .tx tx) rfl).bind fun _ t ht ↦ ?_
    exact post_bind_ofExcept (fun _ _ ↦ ht) fun _ _ ↦ ht
  | computation comp =>
    refine post_read fun c hc ↦ ?_
    exact (post_handle (e := .computation c) (by rw [acted, hc]; rfl)).bind fun _ _ ht ↦ ht
  | minedBlock block amounts =>
    exact (post_handle (e := .block block (some amounts)) rfl).bind fun _ _ ht ↦ ht

end Events

section Vouching

variable {e : Node.Event}

theorem vouched_of_carried {msg : Message} (he : e ∈ carried p msg) : Vouched p.env s e := by
  cases msg with
  | infoBlock msg =>
    obtain ⟨b, -, rfl⟩ := Option.map_eq_some_iff.mp he
    intro h
    cases h
  | infoTransaction tx =>
    obtain ⟨t, -, rfl⟩ := Option.map_eq_some_iff.mp he
    trivial
  | infoComputation comp =>
    obtain ⟨c, -, rfl⟩ := Option.map_eq_some_iff.mp he
    trivial
  | _ => cases he

theorem vouched_of_acted {action : Action fhe} (he : e ∈ acted action)
    (hmined : ∀ block amounts, action = .minedBlock block amounts →
      Identified p.env.toSodium block) : Vouched p.env s e := by
  cases action with
  | sayHello => cases he
  | transaction tx =>
    cases he
    trivial
  | computation comp =>
    obtain ⟨c, -, rfl⟩ := Option.map_eq_some_iff.mp he
    trivial
  | minedBlock block amounts =>
    cases he
    exact fun _ ↦ hmined block amounts rfl

end Vouching

section Network

variable {N : Type} [DecidableEq N] {links : N → List N} {w w' w'' : State N} {n m : N}
variable {event : Event fhe N}

def fed (p : Setup fhe) (w : State N) (n : N) : Event fhe N → Option Node.Event
  | .action m action => if m = n then acted action else none
  | .deliver i => w.flight[i]?.bind fun packet ↦
      if packet.receiver = n then carried p packet.message else none
  | .startSync _ _ | .packet _ => none

theorem perform_manager {asker : Option N} {x : M Reaction}
    (h : w.perform links n asker x = some w') :
    ∃ t, Leads x (w.parties n).manager t ∧
      ∀ m, (w'.parties m).manager = if m = n then t else (w.parties m).manager := by
  have hset (party : Party N) (m : N) : ((w.setParty n party).parties m).manager =
      if m = n then party.manager else (w.parties m).manager := by
    simp only [State.setParty, Function.update_apply]
    split_ifs <;> rfl
  simp only [State.perform] at h
  split at h
  next r t ht =>
    split_ifs at h
    cases h
    exact ⟨t, .inl ⟨r, ht⟩, hset _⟩
  next e t ht =>
    cases h
    exact ⟨t, .inr ⟨e, ht⟩, hset _⟩
  next => cases h

theorem step_moves (h : step p links w event = some w') (n : N) :
    Moves p (fed p w n event) (w.parties n).manager (w'.parties n).manager := by
  cases event with
  | startSync m peer =>
    simp only [step] at h
    split_ifs at h
    cases peer <;>
    · cases h
      by_cases hm : n = m
      · subst hm
        simp [State.setParty, State.send, Moves]
      · simp [State.setParty, State.send, Moves, hm]
  | packet packet =>
    cases h
    exact .refl
  | action m action =>
    obtain ⟨t, ht, hall⟩ := perform_manager h
    rw [hall, fed]
    split_ifs with hn hm hm
    · subst hn
      exact ht.of_post (post_act action)
    · exact absurd hn.symm hm
    · exact absurd hm.symm hn
    · exact .refl
  | deliver i =>
    obtain ⟨packet, hpacket, hreceive⟩ := Option.bind_eq_some_iff.mp h
    obtain ⟨t, ht, hall⟩ := perform_manager hreceive
    rw [hall, fed, hpacket, Option.bind_some]
    split_ifs with hn hm hm
    · subst hn
      exact ht.of_post ((post_route _ packet.message).mono (fun _ _ h ↦ h.moves) fun _ _ h ↦ h)
    · exact absurd hn.symm hm
    · exact absurd hm.symm hn
    · exact .refl

/-- What happens in the network is, in each of its nodes, a run of this node. -/
theorem run_node {C : State N → Event fhe N → Prop} {D : ChainManager → Node.Event → Prop}
    (hC : ∀ w event, C w event → ∀ n, ∀ e ∈ fed p w n event, D (w.parties n).manager e)
    (h : Run (step p links) C w w') (n : N) :
    Node.Run p.env p.cfg D (w.parties n).manager (w'.parties n).manager := by
  induction h with
  | start => exact .start
  | next _ hc hstep ih =>
    rcases step_moves hstep n with heq | ⟨e, he, hlead⟩
    · rwa [heq]
    · exact ih.step (hC _ _ hc n e he) hlead

def Mines (env : Env) (_ : State N) : Event fhe N → Prop
  | .action _ (.minedBlock block _) => Identified env.toSodium block
  | _ => True

theorem vouched_of_mines (hmines : Mines p.env w event) {e : Node.Event} (he : e ∈ fed p w n event) :
    Vouched p.env (w.parties n).manager e := by
  cases event with
  | startSync _ _ | packet _ => cases he
  | action m action =>
    rw [fed] at he
    split_ifs at he
    · exact vouched_of_acted he fun block amounts h ↦ by rwa [h] at hmines
    · cases he
  | deliver i =>
    obtain ⟨packet, -, he⟩ := Option.bind_eq_some_iff.mp he
    split_ifs at he
    exact vouched_of_carried he

end Network

section Sample

open Delivery HeaderEncoding Serving

def sampleComputer : FHEComputer byteFhe where
  computation := {
    expression := [48, 42, 48]
    publicKey := ()
    ciphertexts := [(7 : UInt8)]
    timestamp := 3
    unboundCiphertextsArchive := []
    isBound := false }
  lastRes := none
  proof := []
  depth := 1

def sampleSetup : Setup byteFhe where
  env := sampleEnv
  cfg := sampleConfig
  des := byteDes
  loaded := sampleHeld
  held _ := sampleComputer
  listing _ := []

def sampleNetwork : State Bool where
  parties _ := ⟨sampleStart, false, none⟩
  flight := []

def sampleLinks (n : Bool) : List Bool := [!n]

instance (env : Env) (w : State Bool) : ∀ event : Event byteFhe Bool, Decidable (Mines env w event)
  | .action _ (.minedBlock block _) => inferInstanceAs (Decidable (Identified env.toSodium block))
  | .action _ .sayHello | .action _ (.transaction _) | .action _ (.computation _)
  | .startSync _ _ | .packet _ | .deliver _ => inferInstanceAs (Decidable True)

def sampleEvents : List (Event byteFhe Bool) :=
  [.startSync false none, .startSync true none,
    .packet ⟨false, true, .infoBlock ⟨sampleMessage, false⟩⟩,
    .deliver 0, .deliver 0, .deliver 0, .deliver 0, .deliver 0]

end Sample

section Announcements

variable {hash : Bytes}

theorem Routed.announced {msg : Message} {r : Reaction} (h : Routed p s msg r t)
    (hr : .invBlock hash ∈ r.broadcasts) : ¬ HasBlock s hash ∧ HasBlock t hash := by
  cases h <;> simp [Reaction.silent, Reaction.respond, Reaction.broadcast, Reaction.toSync] at hr
  subst hr
  exact ⟨by assumption, by assumption⟩

theorem Routed.asked {msg : Message} {r : Reaction} (h : Routed p s msg r t)
    (hr : r.response = some (.getBlock hash)) : ¬ HasBlock s hash := by
  cases h <;> simp [Reaction.silent, Reaction.respond, Reaction.broadcast, Reaction.toSync] at hr
  subst hr
  assumption

variable {N : Type} {w w' w'' : State N} {n : N} {event : Event fhe N}

def Reacts (p : Setup fhe) (w : State N) (n : N) (event : Event fhe N)
    (R : Reaction → Prop) : Prop :=
  ∃ i packet r t, event = .deliver i ∧ w.flight[i]? = some packet ∧ packet.receiver = n ∧
    route p (w.parties n).isSynced packet.message (w.parties n).manager = .ok r t ∧ R r

theorem not_reacts (h : HasBlock (w.parties n).manager hash) (event : Event fhe N) :
    ¬ Reacts p w n event fun r ↦
      .invBlock hash ∈ r.broadcasts ∨ r.response = some (.getBlock hash) := by
  rintro ⟨i, packet, r, t, -, -, rfl, hroute, hr⟩
  have hpost := @post_route _ p (w.parties packet.receiver).manager
    (w.parties packet.receiver).isSynced packet.message
  rw [Post, hroute] at hpost
  rcases hr with hr | hr
  · exact (hpost.announced hr).1 h
  · exact hpost.asked hr h

variable [DecidableEq N] {links : N → List N}

theorem hasBlock_kept (h : HasBlock (w.parties n).manager hash) {C : State N → Event fhe N → Prop}
    (hrun : Run (step p links) C w w') : HasBlock (w'.parties n).manager hash := by
  have hnode := run_node (D := fun _ _ ↦ True) (fun _ _ _ _ _ _ ↦ trivial) hrun n
  refine hnode.invariant (I := fun s ↦ HasBlock s hash) h fun s event hs _ ↦ ?_
  exact post_handle_store (P := fun store ↦ (store.lookup hash).isSome)
    (fun _ _ _ ht ↦ (grows_storeBlock _ _ _).isSome ht) hs event

/-- A block that a node has announced it neither announces nor asks for again,
whatever messages come. -/
theorem announced_once (hstep : step p links w event = some w')
    (hann : Reacts p w n event fun r ↦ .invBlock hash ∈ r.broadcasts)
    {C : State N → Event fhe N → Prop} (hrun : Run (step p links) C w' w'')
    (later : Event fhe N) :
    ¬ Reacts p w'' n later fun r ↦
      .invBlock hash ∈ r.broadcasts ∨ r.response = some (.getBlock hash) := by
  refine not_reacts (hasBlock_kept ?_ hrun) later
  obtain ⟨i, packet, r, t, rfl, hpacket, rfl, hroute, hr⟩ := hann
  have hpost := @post_route _ p (w.parties packet.receiver).manager
    (w.parties packet.receiver).isSynced packet.message
  rw [Post, hroute] at hpost
  obtain ⟨packet', hpacket', hreceive⟩ := Option.bind_eq_some_iff.mp hstep
  obtain rfl := Option.some.inj (hpacket.symm.trans hpacket')
  obtain ⟨t', ht', hall⟩ := perform_manager hreceive
  rw [hall, if_pos rfl]
  rcases ht' with ⟨r', h⟩ | ⟨e, h⟩
  · rw [hroute] at h
    cases h
    exact (hpost.announced hr).2
  · rw [hroute] at h
    cases h

def sampleArrival : State Bool where
  parties _ := ⟨sampleStart, true, none⟩
  flight := [⟨false, true, .infoBlock ⟨Delivery.sampleMessage, false⟩⟩]

theorem announced_once_sample : ∃ w, ∃ hash,
    step sampleSetup sampleLinks sampleArrival (.deliver 0) = some w ∧
    ∀ later, ¬ Reacts sampleSetup w true later fun r ↦
      .invBlock hash ∈ r.broadcasts ∨ r.response = some (.getBlock hash) := by
  let hash := Delivery.sampleLoaded.1.hash sampleEnv.toSodium
  have hroute : returns (route sampleSetup true (.infoBlock ⟨Delivery.sampleMessage, false⟩))
      sampleStart (fun r _ ↦ r.broadcasts.any fun
        | .invBlock k => k = hash
        | _ => false) = true := by decide +kernel
  have hstep : (step sampleSetup sampleLinks sampleArrival (.deliver 0)).isSome = true := by
    decide +kernel
  obtain ⟨r, t, hr, hany⟩ := returns_iff.mp hroute
  obtain ⟨w, hw⟩ := Option.isSome_iff_exists.mp hstep
  have hmem : .invBlock hash ∈ r.broadcasts := by
    obtain ⟨msg, hmem, hmsg⟩ := List.any_eq_true.mp hany
    cases msg <;> simp only [decide_eq_true_eq, Bool.false_eq_true] at hmsg
    rwa [← hmsg]
  have hreacts : Reacts sampleSetup sampleArrival true (.deliver 0) fun r ↦
      .invBlock hash ∈ r.broadcasts := ⟨0, _, r, t, rfl, rfl, rfl, hr, hmem⟩
  exact ⟨w, hash, hw, announced_once (C := fun _ _ ↦ True) hw hreacts .start⟩

end Announcements

end FheBlockchain.Chain.RoutingFacts
