import FheBlockchain.Chain.Accepted

namespace FheBlockchain.Chain.Node

open Core.Transactions Core.Blocks Store.Pools Validation Manager
open Store.Chainstate hiding M
open Library.Execution Library.Results

variable (env : Env) (cfg : Config)

/-- `ChainManager::add_tx`, which asks for unspent outputs only and lets two
inputs refer to the same one. -/
def addTx (tx : Transaction) : M Bool := do
  let cs := (← get).chainstate
  match tx.inputs.mapM fun inp ↦ cs.storage.lookup inp.key with
  | none => return false
  | some recs =>
    let amounts := recs.map UTXORecord.amount
    if !(← Exec.ofExcept
        (tx.validateTransaction env.toSodium (recs.map UTXORecord.pubkey) amounts)) then
      return false
    onMemPool (MemPool.addValidTx env.toSodium { tx := tx, inAmounts := amounts })

def addComputation (comp : Computation) : M Bool := do
  let (store, added) := MemCompStore.storeComputation env.toSodium (← get).compStore comp
  modify fun s ↦ { s with compStore := store }
  return added

/-- The block that `handle_sync_block` answers with; `none` is `out_of_range`. -/
def requestedBlock (s : ChainManager) (heightReq : UInt32) : Result (Option Block) :=
  if currentHeight s.mainChain.headerChain < heightReq then .ok none
  else do
    let header ← getHeader s.mainChain.headerChain heightReq
    return some (← s.blockStore.getBlock (header.hash env.toSodium))

inductive Event
  | block (block : Block) (mined : Option (List (List UInt64)))
  | tx (tx : Transaction)
  | computation (comp : Computation)

def handle : Event → M Bool
  | .block block mined => addBlock env cfg block mined
  | .tx tx => addTx env tx
  | .computation comp => addComputation env comp

def Leads {α : Type} (x : M α) (s t : ChainManager) : Prop :=
  (∃ a, x s = .ok a t) ∨ ∃ e, x s = .error (.throw e) t

theorem Leads.of_post {α : Type} {x : M α} {s t : ChainManager} {Q : ChainManager → Prop}
    (h : Leads x s t) (hpost : Post x s (fun _ ↦ Q) (fun _ ↦ Q)) : Q t := by
  rw [Post] at hpost
  rcases h with ⟨a, ha⟩ | ⟨e, he⟩
  · rwa [ha] at hpost
  · rwa [he] at hpost

/-- The states that a node reaches from `s` by events, each of which meets `C`
in the state it finds. -/
inductive Run (C : ChainManager → Event → Prop) (s : ChainManager) : ChainManager → Prop
  | start : Run C s s
  | step {t u : ChainManager} {event : Event} :
      Run C s t → C t event → Leads (handle env cfg event) t u → Run C s u

variable {env cfg}

theorem requestedBlock_outOfRange {s : ChainManager} {heightReq : UInt32}
    (h : currentHeight s.mainChain.headerChain < heightReq) :
    requestedBlock env s heightReq = .ok none := by
  rw [requestedBlock, if_pos h]

theorem requestedBlock_ok {s : ChainManager} {heightReq : UInt32} {header : BlockHeader}
    {block : Block} (h : ¬ currentHeight s.mainChain.headerChain < heightReq)
    (hheader : getHeader s.mainChain.headerChain heightReq = .ok header)
    (hblock : s.blockStore.lookup (header.hash env.toSodium) = some block) :
    requestedBlock env s heightReq = .ok (some block) := by
  have hget : s.blockStore.getBlock (header.hash env.toSodium) = .ok block := by
    rw [MemBlockStore.getBlock, hblock]
  rw [requestedBlock, if_neg h]
  exact bind_eq_ok.mpr ⟨header, hheader, bind_eq_ok.mpr ⟨block, hget, rfl⟩⟩

theorem Run.invariant_of_run {C : ChainManager → Event → Prop} {I : ChainManager → Prop}
    {s t : ChainManager} (h : Run env cfg C s t) (hs : I s)
    (step : ∀ u event, Run env cfg C s u → I u → C u event →
      Post (handle env cfg event) u (fun _ ↦ I) (fun _ ↦ I)) : I t := by
  induction h with
  | start => exact hs
  | step hrun hC hlead ih => exact hlead.of_post (step _ _ hrun ih hC)

theorem Run.invariant {C : ChainManager → Event → Prop} {I : ChainManager → Prop}
    {s t : ChainManager} (h : Run env cfg C s t) (hs : I s)
    (step : ∀ s event, I s → C s event →
      Post (handle env cfg event) s (fun _ ↦ I) (fun _ ↦ I)) : I t :=
  h.invariant_of_run hs fun u event _ ↦ step u event

theorem Run.mono {C C' : ChainManager → Event → Prop} {s t : ChainManager}
    (h : Run env cfg C s t) (hC : ∀ s event, C s event → C' s event) : Run env cfg C' s t := by
  induction h with
  | start => exact .start
  | step _ hc hlead ih => exact .step ih (hC _ _ hc) hlead

theorem Run.trans {C : ChainManager → Event → Prop} {s t u : ChainManager}
    (h : Run env cfg C s t) (h' : Run env cfg C t u) : Run env cfg C s u := by
  induction h' with
  | start => exact h
  | step _ hC hlead ih => exact .step ih hC hlead

structure SameChains (s t : ChainManager) : Prop where
  mainChain : t.mainChain = s.mainChain
  forks : t.forks = s.forks
  chainstate : t.chainstate = s.chainstate
  blockStore : t.blockStore = s.blockStore
  wallet : t.wallet = s.wallet

theorem addTx_sameChains (s : ChainManager) (tx : Transaction) :
    Post (addTx env tx) s (fun _ ↦ SameChains s) (fun _ ↦ SameChains s) := by
  have hsame : SameChains s s := ⟨rfl, rfl, rfl, rfl, rfl⟩
  refine post_bind_get.mpr ?_
  dsimp only
  split
  · exact hsame
  · refine post_bind_ofExcept (fun valid _ ↦ ?_) fun _ _ ↦ hsame
    cases valid with
    | false => exact hsame
    | true => exact post_focus ((post_true _ _).mono (fun _ _ _ ↦ ⟨rfl, rfl, rfl, rfl, rfl⟩)
        fun _ _ _ ↦ ⟨rfl, rfl, rfl, rfl, rfl⟩)

theorem addComputation_sameChains (s : ChainManager) (comp : Computation) :
    Post (addComputation env comp) s (fun _ ↦ SameChains s) (fun _ ↦ SameChains s) :=
  ⟨rfl, rfl, rfl, rfl, rfl⟩

def Received : ChainManager → Event → Prop
  | _, .block _ mined => mined = none
  | _, _ => False

instance (s : ChainManager) (event : Event) : Decidable (Received s event) :=
  match event with
  | .block _ mined => inferInstanceAs (Decidable (mined = none))
  | .tx _ => inferInstanceAs (Decidable False)
  | .computation _ => inferInstanceAs (Decidable False)

section Check

variable (C : ChainManager → Event → Prop) [∀ s event, Decidable (C s event)]

def handleAll (env : Env) (cfg : Config) : List Event → ChainManager → Option ChainManager
  | [], s => some s
  | event :: events, s =>
    if C s event then
      match handle env cfg event s with
      | .ok _ t => handleAll env cfg events t
      | .error (.throw _) t => handleAll env cfg events t
      | .error (.abort _) _ => none
    else none

variable {C}

theorem handleAll_run_of {D : ChainManager → Event → Prop} {events : List Event}
    {s₀ s t : ChainManager} (h : Run env cfg D s₀ s)
    (hD : ∀ event ∈ events, ∀ u, C u event → D u event)
    (hall : handleAll C env cfg events s = some t) : Run env cfg D s₀ t := by
  induction events generalizing s with
  | nil =>
    cases hall
    exact h
  | cons event events ih =>
    have hrest : ∀ e ∈ events, ∀ u, C u e → D u e := fun e he ↦ hD e (List.mem_cons_of_mem _ he)
    rw [handleAll] at hall
    split_ifs at hall with hC
    have hevent := hD event List.mem_cons_self s hC
    split at hall
    next a u hu => exact ih (.step h hevent (.inl ⟨a, hu⟩)) hrest hall
    next e u hu => exact ih (.step h hevent (.inr ⟨e, hu⟩)) hrest hall
    next => contradiction

theorem handleAll_run {events : List Event} {s₀ s t : ChainManager} (h : Run env cfg C s₀ s)
    (hall : handleAll C env cfg events s = some t) : Run env cfg C s₀ t :=
  handleAll_run_of h (fun _ _ _ hC ↦ hC) hall

end Check

end FheBlockchain.Chain.Node
