import FheBlockchain.Chain.Delivery
import FheBlockchain.Chain.Miner
import FheBlockchain.Library.Transitions

namespace FheBlockchain.Chain.Sync

open Core.Transactions Core.Blocks Computer.Computations Computer.Messages Store.Pools Validation
open Manager Accepted Wire
open Node (requestedBlock requestedBlock_outOfRange requestedBlock_ok)
open Library.Execution Library.Results Library.Transitions

structure InfoBlock where
  block : ProtoBlock
  outOfRange : Bool

def defaultBlock : ProtoBlock := ⟨⟨[], [], 0, 0, []⟩, []⟩

/-- What is left to do after the handling of an `InfoBlock` during the sync. -/
inductive Reply
  | none
  | synced
  | request (height : UInt32)

/-- The syncing node and its sync peer. `requests` are the heights of the
`SyncBlock` messages on their way to the peer, and `answers` the `InfoBlock`
messages on their way back. A `listen` that has thrown an exception reads no more
messages: `listening` is that of the node, `serving` that of the peer. -/
structure Network where
  node : ChainManager
  peer : ChainManager
  isSynced : Bool
  started : Bool
  syncPeer : Bool
  listening : Bool
  serving : Bool
  requests : List UInt32
  answers : List InfoBlock

def Network.initial (node peer : ChainManager) : Network where
  node := node
  peer := peer
  isSynced := false
  started := false
  syncPeer := false
  listening := true
  serving := true
  requests := []
  answers := []

section Handlers

variable {fhe : OpenFhe} (env : Env) (cfg : Config) (des : Deserialize fhe)
variable (loaded : Block → List (FHEComputer fhe))

/-- `loaded` gives the computations that the peer holds for a stored block. -/
def handleSyncBlock (peer : ChainManager) (height : UInt32) : Result InfoBlock := do
  match ← requestedBlock env peer height with
  | none => return ⟨defaultBlock, true⟩
  | some block => return ⟨← Block.toProto (block, loaded block), false⟩

def handleInfoBlock (msg : InfoBlock) : M Bool := do
  let (block, _) ← Exec.ofExcept (Block.fromProto des msg.block)
  let hash ← Exec.ofExcept (block.computeHash env.toSodium)
  if ((← get).blockStore.lookup hash).isSome then return false
  addBlock env cfg block none

def handleInfoBlockSync (msg : InfoBlock) : M Reply := do
  if msg.outOfRange then return .synced
  let (block, _) ← Exec.ofExcept (Block.fromProto des msg.block)
  let hash ← Exec.ofExcept (block.computeHash env.toSodium)
  if ((← get).blockStore.lookup hash).isSome then return .none
  if ← addBlock env cfg block none then
    return .request (currentHeight (← get).mainChain.headerChain + 1)
  return .none

theorem eq_hash_of_computeHash {na : Sodium} {block : Block} {hash : Bytes}
    (h : block.computeHash na = .ok hash) : hash = block.hash na := by
  rw [computeHash_proven na (proven_of_computeHash h)] at h
  exact (Except.ok.inj h).symm

/-- `Router::route` of an `InfoBlock`, and whether the `listen` that has read it
goes on. There is no next state where `sync_peer_` is used before it is set. -/
def route (msg : InfoBlock) (s : Network) : Option (Network × Bool) :=
  if s.isSynced then
    match handleInfoBlock env cfg des msg s.node with
    | .ok _ node => some ({ s with node := node }, true)
    | .error (.throw _) node => some ({ s with node := node }, false)
    | .error (.abort _) _ => none
  else
    match handleInfoBlockSync env cfg des msg s.node with
    | .ok .none node => some ({ s with node := node }, true)
    | .ok .synced node =>
      if s.syncPeer then some ({ s with node := node, isSynced := true }, true) else none
    | .ok (.request height) node =>
      if s.syncPeer then some ({ s with node := node, requests := s.requests ++ [height] }, true)
      else none
    | .error (.throw _) node => some ({ s with node := node }, false)
    | .error (.abort _) _ => none

/-- `infoBlock` is a message of another peer, `sendBlock` an answer of the sync
peer to a `GetBlock`. -/
inductive Event
  | startSync (found : Bool)
  | answer
  | handleAnswer
  | infoBlock (msg : InfoBlock)
  | sendBlock (msg : InfoBlock)
  | peerEvent (event : Node.Event)
  | nodeEvent (event : Node.Event)

def after (event : Node.Event) (s : ChainManager) : Option ChainManager :=
  match Node.handle env cfg event s with
  | .ok _ t => some t
  | .error (.throw _) t => some t
  | .error (.abort _) _ => none

def step (s : Network) : Event → Option Network
  | .startSync found =>
    if s.started then none
    else if found then
      some { s with started := true, syncPeer := true, requests := s.requests ++ [1] }
    else some { s with started := true, isSynced := true }
  | .answer =>
    match s.requests with
    | [] => none
    | height :: requests =>
      if !s.serving then none
      else match handleSyncBlock env loaded s.peer height with
        | .ok msg => some { s with requests := requests, answers := s.answers ++ [msg] }
        | .error _ => some { s with requests := requests, serving := false }
  | .handleAnswer =>
    match s.answers with
    | [] => none
    | msg :: answers =>
      if !s.listening then none
      else (route env cfg des msg { s with answers := answers }).map fun r ↦
        { r.1 with listening := r.2 }
  | .infoBlock msg => (route env cfg des msg s).map Prod.fst
  | .sendBlock msg => if s.serving then some { s with answers := s.answers ++ [msg] } else none
  | .peerEvent event => (after env cfg event s.peer).map fun peer ↦ { s with peer := peer }
  | .nodeEvent event => (after env cfg event s.node).map fun node ↦ { s with node := node }

end Handlers

section Progress

variable {fhe : OpenFhe} {env : Env} {cfg : Config} {des : Deserialize fhe}
variable {loaded : Block → List (FHEComputer fhe)} {s s' : Network} {msg : InfoBlock}

theorem handleSyncBlock_outOfRange {peer : ChainManager} {height : UInt32}
    (h : requestedBlock env peer height = .ok none) :
    handleSyncBlock env loaded peer height = .ok ⟨defaultBlock, true⟩ :=
  bind_eq_ok.mpr ⟨none, h, rfl⟩

theorem handleSyncBlock_ok {peer : ChainManager} {height : UInt32} {block : Block}
    (h : requestedBlock env peer height = .ok (some block)) :
    handleSyncBlock env loaded peer height =
      (do return ⟨← Block.toProto (block, loaded block), false⟩) := by
  rw [handleSyncBlock, h]
  rfl

def Syncing (s : Network) : Prop := s.syncPeer = true ∧ s.isSynced = false

instance (s : Network) : Decidable (Syncing s) :=
  inferInstanceAs (Decidable (s.syncPeer = true ∧ s.isSynced = false))

/-- While the node syncs, an answer is on its way or a request is. A message that no
`listen` is going to read does not count. -/
def InFlight (s : Network) : Prop :=
  Syncing s → s.listening = true ∧ (s.answers ≠ [] ∨ s.requests ≠ [] ∧ s.serving = true)

inductive Outcome
  | synced
  | requested
  | ignored
  | thrown

/-- The answer ends the sync, or its block has all proofs, is not stored yet and is
taken by `add_block`, or is stored or refused, or an exception is thrown. -/
def outcome (env : Env) (cfg : Config) (des : Deserialize fhe) (node : ChainManager)
    (msg : InfoBlock) : Outcome :=
  if msg.outOfRange then .synced
  else match Block.fromProto des msg.block with
    | .error _ => .thrown
    | .ok (block, _) =>
      if ¬ Proven block then .thrown
      else if (node.blockStore.lookup (block.hash env.toSodium)).isSome then .ignored
      else match addBlock env cfg block none node with
        | .ok true _ => .requested
        | .ok false _ => .ignored
        | .error _ _ => .thrown

def GoesOn (s : Network) (rest : List InfoBlock) : Outcome → Prop
  | .synced => True
  | .requested => rest ≠ [] ∨ s.serving = true
  | .ignored => rest ≠ [] ∨ s.requests ≠ [] ∧ s.serving = true
  | .thrown => False

instance (s : Network) (rest : List InfoBlock) : ∀ o, Decidable (GoesOn s rest o)
  | .synced => inferInstanceAs (Decidable True)
  | .requested => inferInstanceAs (Decidable (_ ∨ _))
  | .ignored => inferInstanceAs (Decidable (_ ∨ _))
  | .thrown => inferInstanceAs (Decidable False)

/-- The sync starts with a peer that serves, and each request that is answered and
each answer that is handled leaves something to wait for. -/
def Continues (env : Env) (cfg : Config) (des : Deserialize fhe)
    (loaded : Block → List (FHEComputer fhe)) (s : Network) : Event → Prop
  | .startSync found => found = true → s.isSynced = false →
    s.listening = true ∧ (s.answers ≠ [] ∨ s.serving = true)
  | .answer => Syncing s → ∀ height ∈ s.requests.head?,
    (handleSyncBlock env loaded s.peer height).isOk = true ∨ s.answers ≠ []
  | .handleAnswer => Syncing s → ∀ msg ∈ s.answers.head?,
    GoesOn s s.answers.tail (outcome env cfg des s.node msg)
  | _ => True

instance (s : Network) : ∀ event, Decidable (Continues env cfg des loaded s event)
  | .startSync _ => inferInstanceAs (Decidable (_ → _ → _))
  | .answer =>
    -- by the option, not by the heights that there are
    have : Decidable (∀ height ∈ s.requests.head?,
        (handleSyncBlock env loaded s.peer height).isOk = true ∨ s.answers ≠ []) :=
      Option.decidableForallMem _
    instDecidableForall
  | .handleAnswer =>
    have : Decidable (∀ msg ∈ s.answers.head?,
        GoesOn s s.answers.tail (outcome env cfg des s.node msg)) := Option.decidableForallMem _
    instDecidableForall
  | .infoBlock _ | .sendBlock _ | .peerEvent _ | .nodeEvent _ => inferInstanceAs (Decidable True)

theorem handleInfoBlockSync_outcome (msg : InfoBlock) (node : ChainManager) :
    match handleInfoBlockSync env cfg des msg node with
    | .ok .synced _ => outcome env cfg des node msg = .synced
    | .ok (.request _) _ => outcome env cfg des node msg = .requested
    | .ok .none _ => outcome env cfg des node msg = .ignored
    | .error (.throw _) _ => outcome env cfg des node msg = .thrown
    | .error (.abort _) _ => True := by
  rw [handleInfoBlockSync, outcome]
  cases hrange : msg.outOfRange with
  | true => rfl
  | false =>
    cases hblock : Block.fromProto des msg.block with
    | error e => cases e <;> simp [Exec.ofExcept]
    | ok b =>
      obtain ⟨block, comps⟩ := b
      simp only [Bool.false_eq_true, if_false, run_bind_ofExcept_ok]
      by_cases hproven : Proven block
      · rw [computeHash_proven _ hproven, run_bind_ofExcept_ok, run_bind_get,
          if_neg (not_not.mpr hproven)]
        cases hstored : (node.blockStore.lookup (block.hash env.toSodium)).isSome with
        | true => simp
        | false =>
          simp only [Bool.false_eq_true, if_false]
          cases hadd : addBlock env cfg block none node with
          | error e t =>
            rw [run_bind_of_error hadd]
            cases e <;> simp
          | ok added t =>
            rw [run_bind_of_ok hadd]
            cases added <;> simp_all [run_bind_get, run_pure]
      · rw [computeHash_unproven _ hproven]
        simp [Exec.ofExcept, hproven]

theorem route_synced {r : Network × Bool} (hs : s.isSynced = true)
    (h : route env cfg des msg s = some r) : r.1.isSynced = true := by
  rw [route, if_pos hs] at h
  split at h
  next => exact Option.some.inj h ▸ hs
  next => exact Option.some.inj h ▸ hs
  next => cases h

/-- A message that has been routed during the sync, and whether the `listen` that has
read it goes on. -/
inductive Routed (s : Network) : Outcome → Network × Bool → Prop
  | synced (node : ChainManager) :
      Routed s .synced ({ s with node := node, isSynced := true }, true)
  | requested (node : ChainManager) (height : UInt32) :
      Routed s .requested ({ s with node := node, requests := s.requests ++ [height] }, true)
  | ignored (node : ChainManager) : Routed s .ignored ({ s with node := node }, true)
  | thrown (node : ChainManager) : Routed s .thrown ({ s with node := node }, false)

theorem route_syncing {r : Network × Bool} (hs : s.isSynced = false)
    (h : route env cfg des msg s = some r) : Routed s (outcome env cfg des s.node msg) r := by
  have hout := @handleInfoBlockSync_outcome _ env cfg des msg s.node
  rw [route, if_neg (by simp [hs])] at h
  split at h
  next node hnode =>
    rw [hnode] at hout
    exact Option.some.inj h ▸ hout ▸ .ignored node
  next node hnode =>
    rw [hnode] at hout
    split_ifs at h
    exact Option.some.inj h ▸ hout ▸ .synced node
  next height node hnode =>
    rw [hnode] at hout
    split_ifs at h
    exact Option.some.inj h ▸ hout ▸ .requested node height
  next node hnode =>
    rw [hnode] at hout
    exact Option.some.inj h ▸ hout ▸ .thrown node
  next => cases h

/-- The two events that take a message away. -/
theorem answer_cases (h : step env cfg des loaded s .answer = some s') :
    ∃ height requests, s.requests = height :: requests ∧
      ((∃ msg, handleSyncBlock env loaded s.peer height = .ok msg ∧
          s' = { s with requests := requests, answers := s.answers ++ [msg] }) ∨
        (handleSyncBlock env loaded s.peer height).isOk = false ∧
          s' = { s with requests := requests, serving := false }) := by
  simp only [step] at h
  split at h
  · cases h
  · rename_i height requests hrequests
    split_ifs at h
    refine ⟨height, requests, hrequests, ?_⟩
    split at h
    next msg hmsg => exact .inl ⟨msg, hmsg, (Option.some.inj h).symm⟩
    next e he => exact .inr ⟨by rw [he]; rfl, (Option.some.inj h).symm⟩

theorem handleAnswer_cases (h : step env cfg des loaded s .handleAnswer = some s') :
    ∃ msg answers r, s.answers = msg :: answers ∧
      route env cfg des msg { s with answers := answers } = some r ∧
      s' = { r.1 with listening := r.2 } := by
  simp only [step] at h
  split at h
  · cases h
  · rename_i msg answers hanswers
    split_ifs at h
    obtain ⟨r, hr, hs'⟩ := Option.map_eq_some_iff.mp h
    exact ⟨msg, answers, r, hanswers, hr, hs'.symm⟩

/-- An answer leaves the node something to wait for just when it goes on. -/
theorem inFlight_routed {o : Outcome} {answers : List InfoBlock} {r : Network × Bool}
    (hs : Syncing s) (h : Routed { s with answers := answers } o r) :
    InFlight { r.1 with listening := r.2 } ↔ GoesOn s answers o := by
  cases h with
  | synced node => exact iff_of_true (fun hsyncing ↦ absurd hsyncing.2 (by simp)) trivial
  | requested node height =>
    refine ⟨fun h ↦ ((h hs).2).imp_right And.right, fun h _ ↦ ⟨rfl, h.imp_right fun hserving ↦ ?_⟩⟩
    exact ⟨by simp, hserving⟩
  | ignored node => exact ⟨fun h ↦ (h hs).2, fun h _ ↦ ⟨rfl, h⟩⟩
  | thrown node => exact iff_of_false (fun h ↦ absurd (h hs).1 (by simp)) not_false

theorem InFlight.step (h : InFlight s) {event : Event}
    (hgo : Continues env cfg des loaded s event)
    (hstep : step env cfg des loaded s event = some s') : InFlight s' := by
  intro hsyncing
  cases event with
  | startSync found =>
    simp only [Sync.step] at hstep
    split_ifs at hstep with hstarted hfound
    · cases hstep
      obtain ⟨hlisten, hmore⟩ := hgo hfound hsyncing.2
      exact ⟨hlisten, hmore.imp_right fun hserving ↦ ⟨by simp, hserving⟩⟩
    · cases hstep
      exact absurd hsyncing.2 (by simp)
  | answer =>
    obtain ⟨height, requests, hrequests, ⟨msg, hmsg, rfl⟩ | ⟨hfail, rfl⟩⟩ := answer_cases hstep
    · exact ⟨(h hsyncing).1, .inl (by simp)⟩
    · have hleft := hgo hsyncing height (by rw [hrequests]; rfl)
      rw [hfail] at hleft
      exact ⟨(h hsyncing).1, .inl (hleft.resolve_left Bool.false_ne_true)⟩
  | handleAnswer =>
    obtain ⟨msg, answers, r, hanswers, hr, rfl⟩ := handleAnswer_cases hstep
    cases hs : s.isSynced with
    | true => exact absurd ((route_synced (s := { s with answers := answers }) hs hr).symm.trans
        hsyncing.2) (by simp)
    | false =>
      have hrouted := route_syncing (s := { s with answers := answers }) hs hr
      have hpeer : s.syncPeer = true := by
        generalize outcome env cfg des s.node msg = o at hrouted
        cases hrouted <;> exact hsyncing.1
      refine (inFlight_routed ⟨hpeer, hs⟩ hrouted).mpr ?_ hsyncing
      have hgoes := hgo ⟨hpeer, hs⟩ msg (by rw [hanswers]; rfl)
      rwa [hanswers] at hgoes
  | infoBlock msg =>
    obtain ⟨r, hr, rfl⟩ := Option.map_eq_some_iff.mp hstep
    cases hs : s.isSynced with
    | true => exact absurd ((route_synced hs hr).symm.trans hsyncing.2) (by simp)
    | false =>
      have hrouted := route_syncing hs hr
      generalize outcome env cfg des s.node msg = o at hrouted
      cases hrouted with
      | synced node => exact absurd hsyncing.2 (by simp)
      | requested node height =>
        exact (h hsyncing).imp_right fun hmore ↦ hmore.imp_right fun hasked ↦ ⟨by simp, hasked.2⟩
      | ignored node => exact h hsyncing
      | thrown node => exact h hsyncing
  | sendBlock msg =>
    simp only [Sync.step] at hstep
    split_ifs at hstep
    cases hstep
    exact ⟨(h hsyncing).1, .inl (by simp)⟩
  | peerEvent event =>
    obtain ⟨peer, -, rfl⟩ := Option.map_eq_some_iff.mp hstep
    exact h hsyncing
  | nodeEvent event =>
    obtain ⟨node, -, rfl⟩ := Option.map_eq_some_iff.mp hstep
    exact h hsyncing

theorem stalls_otherwise {event : Event} (hstep : step env cfg des loaded s event = some s')
    (hstop : ¬ Continues env cfg des loaded s event) : ¬ InFlight s' := by
  cases event with
  | startSync found =>
    simp only [Continues, Classical.not_imp] at hstop
    obtain ⟨hfound, hsynced, hlost⟩ := hstop
    simp only [Sync.step, hfound, if_true] at hstep
    split_ifs at hstep
    cases hstep
    intro h
    obtain ⟨hlisten, hmore⟩ := h ⟨rfl, hsynced⟩
    exact hlost ⟨hlisten, hmore.imp_right And.right⟩
  | answer =>
    simp only [Continues, Classical.not_imp, not_forall, not_or, not_not] at hstop
    obtain ⟨hsyncing, height, hhead, hfail, hanswers⟩ := hstop
    obtain ⟨height', requests, hrequests, ⟨msg, hmsg, rfl⟩ | ⟨-, rfl⟩⟩ := answer_cases hstep
    · rw [hrequests] at hhead
      obtain rfl := Option.some.inj hhead
      exact absurd (by rw [hmsg]; rfl) hfail
    · intro h
      obtain ⟨-, hmore⟩ := h hsyncing
      simp [hanswers] at hmore
  | handleAnswer =>
    simp only [Continues, Classical.not_imp, not_forall] at hstop
    obtain ⟨hsyncing, msg, hhead, hstuck⟩ := hstop
    obtain ⟨msg', answers, r, hanswers, hr, rfl⟩ := handleAnswer_cases hstep
    rw [hanswers] at hhead hstuck
    obtain rfl := Option.some.inj hhead
    have hrouted := route_syncing (s := { s with answers := answers }) hsyncing.2 hr
    exact mt (inFlight_routed hsyncing hrouted).mp hstuck
  | _ => exact absurd trivial hstop

/-- Something is on its way all through the sync, as long as what is answered and
handled leaves something to wait for. Where it does not, the sync stalls. -/
theorem sync_in_flight (node peer : ChainManager) :
    (∀ s, Run (step env cfg des loaded) (Continues env cfg des loaded) (.initial node peer) s →
      InFlight s) ∧
    ∀ s event s', step env cfg des loaded s event = some s' →
      ¬ Continues env cfg des loaded s event → ¬ InFlight s' := by
  refine ⟨fun s hrun ↦ ?_, fun s event s' ↦ stalls_otherwise⟩
  refine hrun.invariant ?_ fun t event u ht hgo hstep ↦ ht.step hgo hstep
  exact fun hsyncing ↦ absurd hsyncing.1 (by simp [Network.initial])

end Progress

section Sample

open Delivery

def answering (prev : Block) (timestamp : Int64) : Block :=
  let block := arriving prev timestamp
  { block with header := { block.header with computations := sampleLoaded.1.header.computations } }

abbrev sampleStep := step sampleEnv sampleConfig byteDes (fun _ ↦ sampleLoaded.2)

/-- The node takes the one block of its peer and is told that there is no other. -/
theorem sync_in_flight_sample : ∃ s, Run sampleStep
    (Continues sampleEnv sampleConfig byteDes fun _ ↦ sampleLoaded.2)
    (.initial sampleStart sampleStart) s ∧ InFlight s ∧
    s.isSynced = true ∧ s.node.mainChain.headerChain.length = 2 := by
  have hreached : ∃ s, Run sampleStep
      (Continues sampleEnv sampleConfig byteDes fun _ ↦ sampleLoaded.2)
      (.initial sampleStart sampleStart) s ∧
      s.isSynced = true ∧ s.node.mainChain.headerChain.length = 2 :=
    reached_of_takeAll [.startSync true, .peerEvent (.block (answering sampleGenesis 1) none),
      .answer, .handleAnswer, .answer, .handleAnswer] _ (by decide +kernel)
  obtain ⟨s, hrun, hsynced⟩ := hreached
  exact ⟨s, hrun, (sync_in_flight sampleStart sampleStart).1 s hrun, hsynced⟩

/-- The peer turns to another branch between two requests. -/
def upheaval : List Event :=
  let a := answering sampleGenesis 1
  let b₁ := answering sampleGenesis 2
  let b₂ := answering b₁ 3
  [.startSync true, .peerEvent (.block a none), .answer, .handleAnswer,
    .peerEvent (.block b₁ none), .peerEvent (.block b₂ none), .answer, .handleAnswer]

theorem sync_stalls : ¬ ∀ (fhe : OpenFhe) (env : Env) (cfg : Config) (des : Deserialize fhe)
    (loaded : Block → List (FHEComputer fhe)) (wallet : Store.Coins.Wallet)
    (node peer : ChainManager), create env cfg wallet = .ok node → create env cfg wallet = .ok peer →
    ∀ s, Run (step env cfg des loaded) (fun _ _ ↦ True) (.initial node peer) s →
      s.syncPeer = true → s.isSynced = false → s.requests ≠ [] ∨ s.answers ≠ [] := by
  intro h
  have hreached : ∃ s, Run sampleStep (fun _ _ ↦ True) (.initial sampleStart sampleStart) s ∧
      s.syncPeer = true ∧ s.isSynced = false ∧ s.requests = [] ∧ s.answers.length = 0 :=
    reached_of_takeAll upheaval _ (by decide +kernel)
  obtain ⟨s, hrun, hpeer, hsyncing, hrequests, hanswers⟩ := hreached
  have hflight := h _ _ _ _ _ _ _ _ create_sample create_sample s hrun hpeer hsyncing
  simp [hrequests, List.length_eq_zero_iff.mp hanswers] at hflight

end Sample

end FheBlockchain.Chain.Sync
