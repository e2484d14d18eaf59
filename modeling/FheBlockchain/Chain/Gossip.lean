import FheBlockchain.Chain.Views

namespace FheBlockchain.Chain.Gossip

open Core.Transactions Core.Blocks Core.Messages Computer.Computations Computer.Messages Store.Pools
open Validation Manager Placement ReorgFacts AppendFacts Routing RoutingFacts Views
open Node (addTx addComputation handle addComputation)
open Library.Execution Library.Transitions

variable {fhe : OpenFhe} {p : Setup fhe} {s t : ChainManager}

section CompStore

theorem post_append_compStore {env : Env} {cfg : Config} {block : Block}
    {v : Option (List (List UInt64))} {P : MemCompStore → Prop}
    (hP : ∀ store block, P store → P (MemCompStore.spendBlock env.toSodium store block))
    (hs : P s.compStore) :
    Post (appendBlock env cfg block v) s (fun _ t ↦ P t.compStore) fun _ t ↦ P t.compStore := by
  rcases appendBlock_cases s block v with ⟨e, he, -⟩ | hf | ⟨head, txs, hr, happ⟩
  · rw [Post, he]
    cases e with
    | throw e => exact hs
    | abort u => trivial
  · rw [Post, hf]
    exact hs
  · rw [Post, happ]
    simp only [bind, EStateM.bind, extendMain_eq]
    cases Store.Chainstate.addBlock env.toSodium (link env head block)
        (UInt32.ofNat s.mainChain.headerChain.length) s.chainstate with
    | error e cs =>
      cases e with
      | throw e => exact hs
      | abort u => trivial
    | ok _ cs =>
      dsimp only
      split_ifs
      · cases MemPool.spendBlock env.toSodium txs s.memPool with
        | ok _ pool => exact hP s.compStore (link env head block) hs
        | error e pool =>
          cases e with
          | throw e => exact hs
          | abort u => trivial
      · exact hs

theorem post_addBlock_compStore {env : Env} {cfg : Config} {block : Block}
    {mined : Option (List (List UInt64))} {P : MemCompStore → Prop}
    (hP : ∀ store block, P store → P (MemCompStore.spendBlock env.toSodium store block))
    (hs : P s.compStore) :
    Post (addBlock env cfg block mined) s (fun _ t ↦ P t.compStore) fun _ t ↦ P t.compStore := by
  refine post_addBlock (Q := fun t ↦ P t.compStore) hs (fun _ _ _ ht ↦ ht) (fun _ ↦ ?_)
    (fun k fork _ _ _ ↦ ⟨fun _ ↦ hs, fun _ ↦ ?_⟩) fun _ _ _ _ _ _ _ ↦ hs
  · exact (post_append_compStore hP hs).mono (fun _ _ ht _ ↦ ht) fun _ _ ht ↦ ht
  · exact post_reorg_keeps (K := fun t ↦ P t.compStore) hs (fun _ ht ↦ ht) (fun _ _ ht ↦ ht)
      (fun _ ht ↦ ht) (fun _ _ _ ht _ ↦ post_append_compStore hP ht) (fun _ _ _ _ ht _ ↦ ht)
      fun _ _ _ _ ht ↦ ht

def Fewer (store store' : MemCompStore) : Prop :=
  ∀ k c, store'.lookup k = some c → store.lookup k = some c

theorem Fewer.spendBlock {store store' : MemCompStore} (h : Fewer store store') (na : Sodium)
    (block : Block) : Fewer store (MemCompStore.spendBlock na store' block) := by
  rw [MemCompStore.spendBlock]
  induction block.header.computations generalizing store' with
  | nil => exact h
  | cons comp comps ih =>
    refine ih fun k c hk ↦ h k c ?_
    rw [Library.FiniteMap.lookup_erase_ite] at hk
    split_ifs at hk
    exact hk

theorem post_addTx_compStore {env : Env} (tx : Transaction) :
    Post (addTx env tx) s (fun _ t ↦ t.compStore = s.compStore) fun _ t ↦ t.compStore = s.compStore := by
  refine post_bind_get.mpr ?_
  dsimp only
  split
  · rfl
  · refine post_bind_ofExcept (fun valid _ ↦ ?_) fun _ _ ↦ rfl
    cases valid with
    | false => rfl
    | true => exact post_focus ((post_true _ _).mono (fun _ _ _ ↦ rfl) fun _ _ _ ↦ rfl)

end CompStore

section Computations

open Library.Flooding (Sane)

variable {N : Type} {links : N → List N} {w w' : State N} {n m : N} {U : Computation → Prop}

def computations (p : Setup fhe) (links : N → List N) :
    Library.Flooding.Network N Bytes Computation where
  key comp := comp.hash p.env.toSodium
  links := links
  accepts _ _ := true

def compView (p : Setup fhe) : View Bytes Computation where
  held s k := s.compStore.lookup k
  read
    | .invComputation hash => some (.inv hash)
    | .getComputation hash => some (.get hash)
    | .infoComputation msg => (readComputation p msg).toOption.map .info
    | _ => none

/-- Each of the computations stands for an object that the node can send. -/
def Backed (p : Setup fhe) (U : Computation → Prop) : Prop :=
  ∀ c, U c → FHEComputer.Sound (p.held c) ∧ (p.held c).toComputation = .ok c

theorem Backed.sent (h : Backed p U) (hr : Reads p.des) {c : Computation} (hc : U c) :
    ∃ msg, FHEComputer.toProto (p.held c) = .ok msg ∧ readComputation p msg = .ok c := by
  obtain ⟨hsound, hcomp⟩ := h c hc
  obtain ⟨msg, hto, hfrom⟩ := FHEComputer.fromProto_toProto hr hsound hcomp
  refine ⟨msg, hto, ?_⟩
  rw [readComputation, hfrom, ← hcomp]
  exact FHEComputer.toComputation_unbound hsound

theorem addComputation_run {env : Env} {c : Computation}
    (h : s.compStore.lookup (c.hash env.toSodium) = none) :
    addComputation env c s =
      .ok true { s with compStore := s.compStore.insert (c.hash env.toSodium) c } := by
  simp only [addComputation, run_bind_get, MemCompStore.storeComputation, h]
  rfl

theorem addComputation_stored {env : Env} {c : Computation}
    (h : (s.compStore.lookup (c.hash env.toSodium)).isSome) :
    addComputation env c s = .ok false s := by
  simp only [addComputation, run_bind_get, MemCompStore.storeComputation, h]
  rfl

def carriesBlock : Message → Bool
  | .infoBlock _ => true
  | _ => false

theorem carriesBlock_iff {msg : Message} : carriesBlock msg = true ↔ ∃ b, msg = .infoBlock b := by
  cases msg <;> simp [carriesBlock]

def compEvent (p : Setup fhe) (w w' : State N) :
    Event fhe N → Option (Library.Flooding.Event N Bytes Computation)
  | .startSync _ _ | .action _ .sayHello | .action _ (.transaction _) => none
  | .action n (.computation comp) => comp.toComputation.toOption.map (.submit n)
  | .action n (.minedBlock _ _) =>
    some (.shrink n fun k ↦ ((w'.parties n).manager.compStore.lookup k).isSome)
  | .packet packet => ((compView p).packet packet).map .packet
  | .deliver i => w.flight[i]?.bind fun packet ↦
    if carriesBlock packet.message then
      some (.shrink packet.receiver fun k ↦
        ((w'.parties packet.receiver).manager.compStore.lookup k).isSome)
    else ((compView p).read packet.message).map fun _ ↦
      .deliver (Library.Flooding.place (compView p).packet w.flight i)

theorem unread_of_family {msg : Message} (h : family msg ≠ .computation) :
    (compView p).read msg = none := by
  cases msg <;> first | rfl | exact absurd rfl h

def calm (w : State N) : Event fhe N → Bool
  | .action _ (.minedBlock _ _) => false
  | .deliver i => w.flight[i]?.all fun packet ↦ !carriesBlock packet.message
  | _ => true

/-- The computations that come from outside, by RPC or in a message of some other
program, are among the given ones. -/
def Brings (p : Setup fhe) (U : Computation → Prop) (_ : State N) : Event fhe N → Prop
  | .action _ (.computation comp) => ∀ c, comp.toComputation = .ok c → U c
  | .packet ⟨_, _, .infoComputation msg⟩ => ∀ c, readComputation p msg = .ok c → U c
  | _ => True

def comesIn : Event fhe N → Bool
  | .action _ (.computation _) => true
  | .packet packet => family packet.message = .computation
  | _ => false

def arrives (p : Setup fhe) (w : State N) : Event fhe N → Bool
  | .deliver i => w.flight[i]?.any fun packet ↦ ((compView p).read packet.message).isSome
  | _ => false

theorem ok_of_toOption {α : Type} {r : Result α} {a : α} (h : r.toOption = some a) : r = .ok a := by
  cases r with
  | error e => cases h
  | ok b =>
    cases h
    rfl

variable {event : Event fhe N} {e : Library.Flooding.Event N Bytes Computation}

theorem submitted_of_brings (hb : Brings p U w event) (he : compEvent p w w' event = some e) :
    ∀ c ∈ e.submitted, U c := by
  intro c hc
  cases event with
  | startSync n peer => cases he
  | action n action =>
    cases action with
    | sayHello | transaction tx => cases he
    | minedBlock block amounts =>
      cases he
      cases hc
    | computation comp =>
      obtain ⟨c', hc', rfl⟩ := Option.map_eq_some_iff.mp he
      cases hc
      exact hb c (ok_of_toOption hc')
  | packet packet =>
    obtain ⟨n, m, message⟩ := packet
    obtain ⟨packet', hp, rfl⟩ := Option.map_eq_some_iff.mp he
    obtain ⟨msg', hmsg', rfl⟩ := Option.map_eq_some_iff.mp hp
    cases message with
    | infoComputation msg =>
      obtain ⟨c', hc', rfl⟩ := Option.map_eq_some_iff.mp hmsg'
      cases hc
      exact hb c (ok_of_toOption hc')
    | invComputation hash | getComputation hash =>
      cases hmsg'
      cases hc
    | _ => cases hmsg'
  | deliver i =>
    obtain ⟨packet, -, he⟩ := Option.bind_eq_some_iff.mp he
    split_ifs at he
    · cases he
      cases hc
    · obtain ⟨msg', -, rfl⟩ := Option.map_eq_some_iff.mp he
      cases hc

theorem not_shrink_of_calm (hcalm : calm w event = true) (he : compEvent p w w' event = some e) :
    e.isShrink = false := by
  cases event with
  | startSync n peer => cases he
  | action n action =>
    cases action with
    | sayHello | transaction tx => cases he
    | minedBlock block amounts => cases hcalm
    | computation comp =>
      obtain ⟨c', -, rfl⟩ := Option.map_eq_some_iff.mp he
      rfl
  | packet packet =>
    obtain ⟨packet', -, rfl⟩ := Option.map_eq_some_iff.mp he
    rfl
  | deliver i =>
    obtain ⟨packet, hi, he⟩ := Option.bind_eq_some_iff.mp he
    rw [calm, hi, Option.all_some, Bool.not_eq_true'] at hcalm
    rw [hcalm] at he
    obtain ⟨msg', -, rfl⟩ := Option.map_eq_some_iff.mp he
    rfl

theorem compEvent_bound [Fintype N] (hcalm : calm w event = true) (he : compEvent p w w' event = some e) :
    e.isDelivery = arrives p w event ∧
      e.submitted.toList.length ≤ (if comesIn event then 1 else 0) ∧
      (computations p links).cost e ≤
        (if comesIn event then 3 * (computations p links).size + 3 else 0) := by
  cases event with
  | startSync n peer => cases he
  | action n action =>
    cases action with
    | sayHello | transaction tx => cases he
    | minedBlock block amounts => cases hcalm
    | computation comp =>
      obtain ⟨c, -, rfl⟩ := Option.map_eq_some_iff.mp he
      refine ⟨rfl, le_rfl, ?_⟩
      have hn : (links n).length ≤ _ := (computations p links).length_links_le n
      change 3 * (links n).length ≤ 3 * _ + 3
      omega
  | packet packet =>
    obtain ⟨packet', hpacket, rfl⟩ := Option.map_eq_some_iff.mp he
    have hin : comesIn (.packet packet : Event fhe N) = true := by
      by_contra hout
      rw [comesIn, decide_eq_true_eq] at hout
      rw [View.packet, unread_of_family hout] at hpacket
      cases hpacket
    rw [hin]
    refine ⟨rfl, ?_, ?_⟩
    · cases Library.Flooding.Event.submitted (.packet packet') <;> simp
    · obtain ⟨n, m, msg⟩ := packet'
      cases msg <;> simp [Library.Flooding.Network.cost, Library.Flooding.Message.weight]
  | deliver i =>
    obtain ⟨packet, hi, he⟩ := Option.bind_eq_some_iff.mp he
    rw [calm, hi, Option.all_some, Bool.not_eq_true'] at hcalm
    rw [hcalm] at he
    obtain ⟨msg', hread, rfl⟩ := Option.map_eq_some_iff.mp he
    refine ⟨?_, le_rfl, le_rfl⟩
    rw [arrives, hi, Option.any_some, hread]
    rfl

structure Fresh (w : State N) : Prop where
  stores : ∀ n, (w.parties n).manager.compStore = ∅
  flight : ∀ packet ∈ w.flight, family packet.message ≠ .computation

theorem Fresh.state (h : Fresh w) : (compView p).state w = .empty := by
  have hflight : w.flight.filterMap (compView p).packet = [] := by
    rw [List.filterMap_eq_nil_iff]
    intro packet hpacket
    rw [View.packet, unread_of_family (h.flight packet hpacket)]
    rfl
  simp only [View.state, hflight, Library.Flooding.State.empty]
  congr 1
  funext n k
  simp [compView, h.stores n]

variable [DecidableEq N]

theorem store_computation {c : Computation} {t : ChainManager}
    (ht : t.compStore =
      (w.parties n).manager.compStore.insert (c.hash p.env.toSodium) c) :
    { (compView p).state w with
      held := Function.update ((compView p).state w).held n ((compView p).held t) } =
      ((compView p).state w).store n (c.hash p.env.toSodium) c := by
  have hheld : (compView p).held t = Function.update (((compView p).state w).held n)
      (c.hash p.env.toSodium) (some c) := by
    funext k
    rw [Function.update_apply]
    simp only [compView, View.state, ht, Library.FiniteMap.lookup_insert_ite]
  rw [Library.Flooding.State.store, hheld]

theorem react_computation (hr : Reads p.des) (hU : Backed p U)
    (hs : Sane (computations p links) U ((compView p).state w)) {packet : Packet N}
    {msg : Library.Flooding.Message Bytes Computation}
    (h : w.receive p links packet = some w') (hmsg : (compView p).read packet.message = some msg) :
    (computations p links).react ⟨packet.sender, packet.receiver, msg⟩ ((compView p).state w) =
      (compView p).state w' := by
  obtain ⟨n, m, message⟩ := packet
  have hheld (k : Bytes) : ((compView p).state w).held m k =
      (w.parties m).manager.compStore.lookup k := rfl
  cases message with
  | invComputation hash =>
    cases hmsg
    simp only [Library.Flooding.Network.react, hheld]
    cases hk : (w.parties m).manager.compStore.lookup hash with
    | some c =>
      have hroute : route p (w.parties m).isSynced (.invComputation hash) (w.parties m).manager =
          .ok .silent (w.parties m).manager := by simp [route, handleInvComputation, hk]
      rw [View.state_of_same h hroute, View.packets_silent]
      simp [Library.Flooding.State.send]
    | none =>
      have hroute : route p (w.parties m).isSynced (.invComputation hash) (w.parties m).manager =
          .ok (.respond (.getComputation hash)) (w.parties m).manager := by
        simp [route, handleInvComputation, hk]
      rw [View.state_of_same h hroute, View.packets_respond]
      rfl
  | getComputation hash =>
    cases hmsg
    simp only [Library.Flooding.Network.react, hheld]
    cases hk : (w.parties m).manager.compStore.lookup hash with
    | none =>
      have hroute : route p (w.parties m).isSynced (.getComputation hash) (w.parties m).manager =
          .ok .silent (w.parties m).manager := by simp [route, handleGetComputation, hk]
      rw [View.state_of_same h hroute, View.packets_silent]
      simp [Library.Flooding.State.send]
    | some c =>
      obtain ⟨msg, hto, hread⟩ := hU.sent hr (hs.held ((hheld hash).trans hk)).2.2
      have hroute : route p (w.parties m).isSynced (.getComputation hash) (w.parties m).manager =
          .ok (.respond (.infoComputation msg)) (w.parties m).manager := by
        simp only [route, handleGetComputation, run_bind_get, hk, hto]
        rfl
      have hseen : (compView p).packet (⟨m, n, .infoComputation msg⟩ : Packet N) =
          some ⟨m, n, .info c⟩ := by
        simp only [View.packet, compView, hread]
        rfl
      rw [View.state_of_same h hroute, View.packets_respond, List.filterMap_cons, hseen]
      rfl
  | infoComputation comp =>
    obtain ⟨c, hc, rfl⟩ := Option.map_eq_some_iff.mp hmsg
    have hread : readComputation p comp = .ok c := by
      cases hcomp : readComputation p comp with
      | error e =>
        rw [hcomp] at hc
        cases hc
      | ok c' =>
        rw [hcomp] at hc
        cases hc
        rfl
    simp only [Library.Flooding.Network.react, Library.Flooding.Network.takes, hheld]
    cases hk : (w.parties m).manager.compStore.lookup (c.hash p.env.toSodium) with
    | some c' =>
      have hroute : route p (w.parties m).isSynced (.infoComputation comp) (w.parties m).manager =
          .ok .silent (w.parties m).manager := by
        simp [route, handleInfoComputation, hread, hk]
      have hkey : (w.parties m).manager.compStore.lookup ((computations p links).key c) = some c' := hk
      rw [View.state_of_same h hroute, View.packets_silent, hkey]
      simp [Library.Flooding.State.send]
    | none =>
      have hadd := @addComputation_run (w.parties m).manager p.env c hk
      have hroute : route p (w.parties m).isSynced (.infoComputation comp) (w.parties m).manager =
          .ok (.broadcast [.invComputation (c.hash p.env.toSodium)])
            { (w.parties m).manager with
              compStore := (w.parties m).manager.compStore.insert (c.hash p.env.toSodium) c } := by
        simp only [route, handleInfoComputation, hread, run_bind_ofExcept_ok, run_bind_get, hk,
          Option.isSome_none, Bool.false_eq_true, if_false]
        rw [run_bind_of_ok hadd]
        rfl
      have hkey : (w.parties m).manager.compStore.lookup ((computations p links).key c) = none := hk
      rw [View.state_of_ok h hroute, store_computation rfl, View.packets_broadcast, hkey]
      rw [List.flatMap_singleton, View.filterMap_toAll rfl]
      rfl
  | _ => cases hmsg

theorem shrink_of_fewer {asker : Option N} {x : M Reaction}
    (h : w.perform links n asker x = some w')
    (hx : Post x (w.parties n).manager
      (fun r t ↦ (∀ msg ∈ messages r, (compView p).read msg = none) ∧
        Fewer (w.parties n).manager.compStore t.compStore)
      fun _ t ↦ Fewer (w.parties n).manager.compStore t.compStore) :
    (compView p).state w' = ((compView p).state w).shrink n fun k ↦
      ((w'.parties n).manager.compStore.lookup k).isSome := by
  have hkeep {t : ChainManager} (ht : Fewer (w.parties n).manager.compStore t.compStore) :
      (compView p).held t = fun k ↦ if (t.compStore.lookup k).isSome
        then ((compView p).state w).held n k else none := by
    funext k
    cases hk : t.compStore.lookup k with
    | none => simp [compView, hk]
    | some c => simp [compView, View.state, hk, ht k c hk]
  rw [Post] at hx
  rcases View.state_perform (v := compView p) h with ⟨r, hrun, he⟩ | ⟨e, hrun, he⟩
  · rw [hrun] at hx
    rw [he, View.filterMap_unread hx.1, hkeep hx.2]
    simp [Library.Flooding.State.send, Library.Flooding.State.shrink]
  · rw [hrun] at hx
    rw [he, hkeep hx]
    rfl

theorem unread_of_routed {msg : Message} {r : Reaction} (h : Routed p s msg r t)
    (hmsg : family msg ≠ .computation) : ∀ msg' ∈ messages r, (compView p).read msg' = none := by
  intro msg' hmem
  rcases family_of_routed h hmem with he | rfl
  · exact unread_of_family (he ▸ hmsg)
  · rfl

theorem fewer_of_handle {e : Node.Event} (h : Node.Leads (handle p.env p.cfg e) s t)
    (he : ∀ c, e ≠ .computation c) : Fewer s.compStore t.compStore := by
  cases e with
  | tx tx =>
    have hsame : t.compStore = s.compStore :=
      h.of_post (Q := fun t ↦ t.compStore = s.compStore) (post_addTx_compStore tx)
    rw [hsame]
    exact fun _ _ h ↦ h
  | computation c => exact absurd rfl (he c)
  | block block mined =>
    exact h.of_post (Q := fun t ↦ Fewer s.compStore t.compStore)
      (post_addBlock_compStore (fun _ block h ↦ h.spendBlock _ block) fun _ _ h ↦ h)

theorem compStore_of_moves {msg : Message} (h : Moves p (carried p msg) s t)
    (hblock : ∀ b, msg ≠ .infoBlock b) (hcomp : ∀ c, msg ≠ .infoComputation c) :
    t.compStore = s.compStore := by
  rcases h with rfl | ⟨e, he, hlead⟩
  · rfl
  · cases msg with
    | infoBlock b => exact absurd rfl (hblock b)
    | infoComputation c => exact absurd rfl (hcomp c)
    | infoTransaction tx =>
      obtain ⟨t, -, rfl⟩ := Option.map_eq_some_iff.mp he
      exact hlead.of_post (Q := fun t ↦ t.compStore = s.compStore) (post_addTx_compStore _)
    | _ => cases he

theorem fewer_of_moves {msg : Sync.InfoBlock} (h : Moves p (carried p (.infoBlock msg)) s t) :
    Fewer s.compStore t.compStore := by
  rcases h with rfl | ⟨e, he, hlead⟩
  · exact fun _ _ h ↦ h
  · refine fewer_of_handle hlead fun c hc ↦ ?_
    obtain ⟨b, -, rfl⟩ := Option.map_eq_some_iff.mp he
    cases hc

theorem post_route_unread {isSynced : Bool} {msg : Message} (hmsg : (compView p).read msg = none)
    (hblock : ∀ b, msg ≠ .infoBlock b) :
    Post (route p isSynced msg) s
      (fun r t ↦ (∀ msg ∈ messages r, (compView p).read msg = none) ∧
        (compView p).held t = (compView p).held s)
      fun _ t ↦ (compView p).held t = (compView p).held s := by
  have hheld {t : ChainManager} (ht : t.compStore = s.compStore) :
      (compView p).held t = (compView p).held s := by
    funext k
    simp only [compView, ht]
  by_cases hcomp : family msg = .computation
  · cases msg with
    | infoComputation comp =>
      cases hread : readComputation p comp with
      | ok c => simp [compView, hread, Except.toOption] at hmsg
      | error e =>
        refine post_bind_ofExcept (fun c hc ↦ ?_) fun _ _ ↦ rfl
        rw [hread] at hc
        cases hc
    | invComputation _ | getComputation _ => cases hmsg
    | _ => cases hcomp
  · have hne : ∀ c, msg ≠ .infoComputation c := by
      rintro c rfl
      exact hcomp rfl
    exact (post_route isSynced msg).mono
      (fun r t h ↦ ⟨unread_of_routed h hcomp, hheld (compStore_of_moves h.moves hblock hne)⟩)
      fun _ t h ↦ hheld (compStore_of_moves h hblock hne)

theorem post_act_transaction (tx : Transaction) :
    Post (act p (.transaction tx)) s
      (fun r t ↦ (∀ msg ∈ messages r, (compView p).read msg = none) ∧
        (compView p).held t = (compView p).held s)
      fun _ t ↦ (compView p).held t = (compView p).held s := by
  have hheld {t : ChainManager} (ht : t.compStore = s.compStore) :
      (compView p).held t = (compView p).held s := by
    funext k
    simp only [compView, ht]
  refine ((post_addTx_compStore tx).mono (fun _ _ h ↦ h) fun _ _ h ↦ hheld h).bind fun _ t ht ↦ ?_
  refine post_bind_ofExcept (fun txid _ ↦ ⟨fun msg hmsg ↦ ?_, hheld ht⟩) fun _ _ ↦ hheld ht
  rw [List.mem_singleton.mp hmsg]
  rfl

theorem post_act_minedBlock (block : Block) (amounts : List (List UInt64)) :
    Post (act p (.minedBlock block amounts)) s
      (fun r t ↦ (∀ msg ∈ messages r, (compView p).read msg = none) ∧
        Fewer s.compStore t.compStore)
      fun _ t ↦ Fewer s.compStore t.compStore := by
  refine (post_addBlock_compStore (P := Fewer s.compStore) (fun _ block h ↦ h.spendBlock _ block)
    fun _ _ h ↦ h).bind fun _ t ht ↦ post_pure.mpr ⟨fun msg hmsg ↦ ?_, ht⟩
  rw [List.mem_singleton.mp hmsg]
  rfl

theorem comp_submit {comp : FHEComputer fhe}
    (h : w.perform links n none (act p (.computation comp)) = some w') :
    (comp.toComputation.toOption.map fun c ↦ Library.Flooding.Event.submit n c).elim
      ((compView p).state w' = (compView p).state w) fun e ↦
      (computations p links).step ((compView p).state w) e = some ((compView p).state w') := by
  cases hcomp : comp.toComputation with
  | error e =>
    refine View.state_of_unseen h ?_
    refine post_bind_ofExcept (fun c hc ↦ ?_) fun _ _ ↦ rfl
    rw [hcomp] at hc
    cases hc
  | ok c =>
    refine congrArg some ?_
    rw [Library.Flooding.Network.submit, Library.Flooding.Network.takes]
    have hact {added : Bool} {t : ChainManager}
        (hadd : addComputation p.env c (w.parties n).manager = .ok added t) :
        act p (.computation comp) (w.parties n).manager =
          .ok (.broadcast [.invComputation (c.hash p.env.toSodium)]) t := by
      rw [act, hcomp, run_bind_ofExcept_ok, run_bind_of_ok hadd]
      rfl
    have hsent : (packets links n none (w.parties n).syncPeer
        (.broadcast [.invComputation (c.hash p.env.toSodium)])).filterMap (compView p).packet =
          (computations p links).announce n (c.hash p.env.toSodium) := by
      rw [View.packets_broadcast, List.flatMap_singleton, View.filterMap_toAll rfl]
      rfl
    have hheld : ((compView p).state w).held n ((computations p links).key c) =
        (w.parties n).manager.compStore.lookup (c.hash p.env.toSodium) := rfl
    rw [hheld]
    cases hk : (w.parties n).manager.compStore.lookup (c.hash p.env.toSodium) with
    | none =>
      rw [View.state_of_ok h (hact (addComputation_run hk)), store_computation rfl, hsent]
      rfl
    | some c' =>
      rw [View.state_of_same h (hact (addComputation_stored (by rw [hk]; rfl))), hsent]
      rfl

theorem comp_step (hr : Reads p.des) (hU : Backed p U)
    (hs : Sane (computations p links) U ((compView p).state w)) {event : Event fhe N}
    (h : step p links w event = some w') :
    (compEvent p w w' event).elim ((compView p).state w' = (compView p).state w) fun e ↦
      (computations p links).step ((compView p).state w) e = some ((compView p).state w') := by
  cases event with
  | startSync n peer => exact View.state_startSync h rfl
  | packet packet =>
    cases h
    have hsent := View.state_send (v := compView p) (w := w) [packet]
    rw [compEvent]
    cases hp : (compView p).packet packet with
    | none =>
      rw [List.filterMap_cons, hp] at hsent
      simpa [Library.Flooding.State.send] using hsent
    | some packet' =>
      rw [List.filterMap_cons, hp] at hsent
      exact congrArg some hsent.symm
  | action n action =>
    have h : w.perform links n none (act p action) = some w' := h
    cases action with
    | sayHello =>
      refine View.state_of_unseen h (post_pure.mpr ⟨fun msg hmsg ↦ ?_, rfl⟩)
      rw [List.mem_singleton.mp hmsg]
      rfl
    | transaction tx => exact View.state_of_unseen h (post_act_transaction tx)
    | minedBlock block amounts =>
      exact congrArg some (shrink_of_fewer h (post_act_minedBlock block amounts)).symm
    | computation comp => exact comp_submit h
  | deliver i =>
    obtain ⟨packet, hi, hreceive⟩ := Option.bind_eq_some_iff.mp h
    rw [compEvent, hi, Option.bind_some]
    cases hblock : carriesBlock packet.message with
    | true =>
      obtain ⟨b, hb⟩ := carriesBlock_iff.mp hblock
      have hunread : (compView p).read packet.message = none := by rw [hb]; rfl
      have hshrunk := shrink_of_fewer hreceive ((post_route _ packet.message).mono
        (fun r t ht ↦ ⟨unread_of_routed ht (by rw [hb]; simp [family]), fewer_of_moves (hb ▸ ht.moves)⟩)
        fun _ t ht ↦ fewer_of_moves (hb ▸ ht))
      rw [View.state_erase hi hunread] at hshrunk
      exact congrArg some hshrunk.symm
    | false =>
      simp only [Bool.false_eq_true, if_false]
      cases hread : (compView p).read packet.message with
      | none =>
        have hunseen := View.state_of_unseen hreceive (post_route_unread hread fun b hb ↦ by
          rw [hb] at hblock
          cases hblock)
        rw [View.state_erase hi hread] at hunseen
        exact hunseen
      | some msg =>
        have hsane : Sane (computations p links) U
            ((compView p).state { w with flight := w.flight.eraseIdx i }) :=
          hs.sub ((List.eraseIdx_sublist _ i).filterMap _).subset
        have hreact := react_computation hr hU hsane hreceive hread
        exact (View.step_deliver hi hread).trans (congrArg some hreact)

/-- A run of the network is, for the computations, a run of flooding. -/
theorem flooding_of_run (hr : Reads p.des) (hU : Backed p U) (hfresh : Fresh w)
    (h : Run (step p links) (Brings p U) w w') :
    Run (computations p links).step (Library.Flooding.Submits U) .empty ((compView p).state w') := by
  rw [← hfresh.state (p := p)]
  refine h.project fun t event u _ hflood hb hstep ↦ ?_
  rw [hfresh.state] at hflood
  have hcomp := comp_step hr hU (Library.Flooding.sane_of_run hflood) hstep
  cases he : compEvent p t u event with
  | none =>
    rw [he] at hcomp
    exact .inl hcomp
  | some e =>
    rw [he] at hcomp
    exact .inr ⟨e, submitted_of_brings hb he, hcomp⟩

/-- Whatever messages there are and whatever blocks come, a node holds only
computations that came from outside somewhere, each one under its own hash. -/
theorem computations_brought (hr : Reads p.des) (hU : Backed p U) (hfresh : Fresh w)
    (h : Run (step p links) (Brings p U) w w') {k : Bytes} {c : Computation}
    (hk : (w'.parties n).manager.compStore.lookup k = some c) :
    c.hash p.env.toSodium = k ∧ U c := by
  have hflood : Run (computations p links).step _ .empty _ := flooding_of_run hr hU hfresh h
  obtain ⟨hkey, -, hc⟩ := (Library.Flooding.sane_of_run hflood).held (n := n) (k := k) hk
  exact ⟨hkey, hc⟩

/-- From empty stores and as long as no block comes: once no message about
computations is on its way, nodes that are connected hold the same computations. -/
theorem computations_agree (hr : Reads p.des) (hU : Backed p U) (hfresh : Fresh w)
    (h : Run (step p links) (fun w event ↦ Brings p U w event ∧ calm w event = true) w w')
    (hquiet : ∀ packet ∈ w'.flight, family packet.message ≠ .computation)
    (hnm : Relation.ReflTransGen (fun n m ↦ m ∈ links n) n m) {k : Bytes}
    (hk : ((w'.parties n).manager.compStore.lookup k).isSome) :
    ((w'.parties m).manager.compStore.lookup k).isSome := by
  have hflood : Run (computations p links).step
      (fun s e ↦ Library.Flooding.Submits U s e ∧ e.isShrink = false) .empty
      ((compView p).state w') := by
    rw [← hfresh.state (p := p)]
    refine h.project fun t event u hrun _ hb hstep ↦ ?_
    have hsofar := flooding_of_run hr hU hfresh (hrun.mono fun _ _ hb ↦ hb.1)
    have hcomp := comp_step hr hU (Library.Flooding.sane_of_run hsofar) hstep
    cases he : compEvent p t u event with
    | none =>
      rw [he] at hcomp
      exact .inl hcomp
    | some e =>
      rw [he] at hcomp
      exact .inr ⟨e, ⟨submitted_of_brings hb.1 he, not_shrink_of_calm hb.2 he⟩, hcomp⟩
  obtain ⟨hsane, hcovered⟩ := Library.Flooding.covered_of_run hflood
  have hempty : ((compView p).state w').flight = [] := by
    refine List.filterMap_eq_nil_iff.mpr fun packet hpacket ↦ ?_
    rw [View.packet, unread_of_family (hquiet packet hpacket)]
    rfl
  exact hcovered.agree_connected hsane hempty (fun _ _ _ _ ↦ rfl) hnm hk

section Bound

open Library.Flooding (Event.isDelivery Event.submitted)

variable {events : List (Event fhe N)}

def arrivals (p : Setup fhe) (links : N → List N) : State N → List (Event fhe N) → ℕ
  | _, [] => 0
  | w, event :: events => (if arrives p w event then 1 else 0) +
      (step p links w event).elim 0 fun w' ↦ arrivals p links w' events

theorem not_arrives_of_none (h : step p links w event = some w')
    (he : compEvent p w w' event = none) : arrives p w event = false := by
  cases event with
  | deliver i =>
    obtain ⟨packet, hi, -⟩ := Option.bind_eq_some_iff.mp h
    rw [compEvent, hi, Option.bind_some] at he
    split_ifs at he
    rw [arrives, hi, Option.any_some, Option.map_eq_none_iff.mp he]
    rfl
  | _ => rfl

variable [Fintype N]

structure Traced (p : Setup fhe) (links : N → List N) (w w' : State N) (events : List (Event fhe N))
    (trace : List (Library.Flooding.Event N Bytes Computation)) : Prop where
  run : trace.foldlM (computations p links).step ((compView p).state w) = some ((compView p).state w')
  keeps : ∀ e ∈ trace, e.isShrink = false
  deliveries : trace.countP Event.isDelivery = arrivals p links w events
  submitted : (trace.filterMap Event.submitted).length ≤ events.countP comesIn
  cost : (trace.map (computations p links).cost).sum ≤
    events.countP comesIn * (3 * (computations p links).size + 3)

theorem Traced.unseen {u : State N} {trace : List (Library.Flooding.Event N Bytes Computation)}
    (h : Traced p links u w' events trace) (hu : step p links w event = some u)
    (he : compEvent p w u event = none) (hsame : (compView p).state u = (compView p).state w) :
    Traced p links w w' (event :: events) trace := by
  have hcount : events.countP comesIn ≤ (event :: events).countP comesIn := by
    rw [List.countP_cons]
    exact Nat.le_add_right _ _
  refine ⟨hsame ▸ h.run, h.keeps, ?_, h.submitted.trans hcount,
    h.cost.trans (Nat.mul_le_mul_right _ hcount)⟩
  rw [arrivals, not_arrives_of_none hu he, hu, h.deliveries]
  simp

theorem Traced.next {u : State N} {trace : List (Library.Flooding.Event N Bytes Computation)}
    (h : Traced p links u w' events trace) (hcalm : calm w event = true)
    (hu : step p links w event = some u) (he : compEvent p w u event = some e)
    (hnext : (computations p links).step ((compView p).state w) e = some ((compView p).state u)) :
    Traced p links w w' (event :: events) (e :: trace) := by
  obtain ⟨hdelivery, hsubmitted, hcost⟩ : _ ∧ _ ∧ (computations p links).cost e ≤ _ :=
    compEvent_bound hcalm he
  refine ⟨?_, List.forall_mem_cons.mpr ⟨not_shrink_of_calm hcalm he, h.keeps⟩, ?_, ?_, ?_⟩
  · rw [List.foldlM_cons, hnext]
    exact h.run
  · rw [List.countP_cons, h.deliveries, hdelivery, arrivals, hu]
    exact Nat.add_comm _ _
  · have hlater := h.submitted
    rw [List.countP_cons, List.filterMap_cons]
    cases hs : Event.submitted e with
    | none => exact hlater.trans (Nat.le_add_right _ _)
    | some c =>
      rw [hs] at hsubmitted
      exact Nat.add_le_add hlater hsubmitted
  · have hlater := h.cost
    rw [List.map_cons, List.sum_cons, List.countP_cons, Nat.add_mul]
    split_ifs at hcost ⊢ <;> omega

theorem trace_of_run (hr : Reads p.des) (hU : Backed p U)
    (hs : Sane (computations p links) U ((compView p).state w))
    (hb : ∀ event ∈ events, ∀ w, Brings p U w event)
    (h : takeAll (step p links) (fun w event ↦ calm w event = true) events w = some w') :
    ∃ trace, Traced p links w w' events trace := by
  induction events generalizing w with
  | nil =>
    cases h
    exact ⟨[], rfl, by simp, rfl, le_rfl, Nat.zero_le _⟩
  | cons event events ih =>
    rw [takeAll] at h
    split_ifs at h with hcalm
    obtain ⟨u, hu, hrest⟩ := Option.bind_eq_some_iff.mp h
    have hcomp := comp_step hr hU hs hu
    have hlater : ∀ later ∈ events, ∀ w, Brings p U w later := by
      intro later hmem
      exact hb later (List.mem_cons_of_mem _ hmem)
    cases he : compEvent p w u event with
    | none =>
      rw [he] at hcomp
      have hsame : (compView p).state u = (compView p).state w := hcomp
      obtain ⟨trace, htrace⟩ := ih (hsame ▸ hs) hlater hrest
      exact ⟨trace, htrace.unseen hu he hsame⟩
    | some e =>
      rw [he] at hcomp
      have hsane := hs.step (submitted_of_brings (hb event List.mem_cons_self w) he) hcomp
      obtain ⟨trace, htrace⟩ := ih hsane hlater hrest
      exact ⟨e :: trace, htrace.next hcalm hu he hcomp⟩

/-- From empty stores and as long as no block comes, the flooding of computations
comes to an end: what comes from outside bounds how many messages about them ever
arrive. -/
theorem arrivals_le (hr : Reads p.des) (hU : Backed p U) (hfresh : Fresh w)
    (hb : ∀ event ∈ events, ∀ w, Brings p U w event)
    (h : takeAll (step p links) (fun w event ↦ calm w event = true) events w = some w') :
    arrivals p links w events ≤
      events.countP comesIn * (6 * (∑ n, (links n).length) + 3) := by
  obtain ⟨trace, htrace⟩ := trace_of_run hr hU (hfresh.state (p := p) ▸
    Library.Flooding.sane_empty) hb h
  have hrun := htrace.run
  rw [hfresh.state] at hrun
  have hbound := Library.Flooding.deliveries_le htrace.keeps hrun
  have hsubmitted := Nat.mul_le_mul_right (3 * (computations p links).size) htrace.submitted
  have hcost := htrace.cost
  rw [htrace.deliveries] at hbound
  change _ ≤ _ * (6 * (computations p links).size + 3)
  have hsplit : events.countP comesIn * (6 * (computations p links).size + 3) =
      events.countP comesIn * (3 * (computations p links).size) +
        events.countP comesIn * (3 * (computations p links).size + 3) := by ring
  omega

end Bound

section Sample

open Accepted Delivery HeaderEncoding

def sampleFlooded : Computation where
  body := sampleComputer.computation.serialize.toOption.getD []
  output := []
  proof := []
  difficulty := 1

theorem sampleComputer_ok : sampleComputer.toComputation = .ok sampleFlooded := by
  decide +kernel

theorem sampleComputer_backed : Backed sampleSetup fun c ↦ c = sampleFlooded := by
  rintro c rfl
  refine ⟨FHEComputer.sound_of_unbound rfl ?_, sampleComputer_ok⟩
  decide +kernel

theorem sampleNetwork_fresh : Fresh sampleNetwork := ⟨fun _ ↦ rfl, by simp [sampleNetwork]⟩

def sampleFlood : List (Event byteFhe Bool) :=
  [.action false (.computation sampleComputer), .deliver 0, .deliver 0, .deliver 0, .deliver 0]

theorem sampleFlood_brings : ∀ event ∈ sampleFlood, ∀ w,
    Brings sampleSetup (fun c ↦ c = sampleFlooded) w event := by
  intro event hevent w
  simp only [sampleFlood, List.mem_cons, List.not_mem_nil, or_false] at hevent
  rcases hevent with rfl | rfl | rfl | rfl | rfl
  · intro c hc
    exact Except.ok.inj (hc.symm.trans sampleComputer_ok)
  all_goals trivial

theorem sampleFlood_taken : ∃ w, takeAll (step sampleSetup sampleLinks)
      (fun w event ↦ calm w event = true) sampleFlood sampleNetwork = some w ∧ w.flight = [] ∧
    ∀ n, (w.parties n).manager.compStore.lookup (sampleFlooded.hash sampleEnv.toSodium) =
      some sampleFlooded := by
  have htaken : (takeAll (step sampleSetup sampleLinks) (fun w event ↦ calm w event = true)
      sampleFlood sampleNetwork).any (fun w ↦ w.flight.length = 0 ∧ ∀ n,
        (w.parties n).manager.compStore.lookup (sampleFlooded.hash sampleEnv.toSodium) =
          some sampleFlooded) = true := by decide +kernel
  obtain ⟨w, hw, h⟩ := (Option.any_eq_true _ _).mp htaken
  rw [decide_eq_true_eq] at h
  exact ⟨w, hw, List.length_eq_zero_iff.mp h.1, h.2⟩

theorem computations_brought_sample : ∃ w k c,
    Run (step sampleSetup sampleLinks) (Brings sampleSetup fun c ↦ c = sampleFlooded) sampleNetwork w ∧
    (w.parties true).manager.compStore.lookup k = some c ∧
    c.hash sampleEnv.toSodium = k ∧ c = sampleFlooded := by
  obtain ⟨w, hw, -, hstores⟩ := sampleFlood_taken
  have hrun := (run_of_takeAll_forall hw sampleFlood_brings).mono fun _ _ h ↦ h.1
  exact ⟨w, _, _, hrun, hstores true, computations_brought (p := sampleSetup) byteDes_reads
    sampleComputer_backed sampleNetwork_fresh hrun (hstores true)⟩

theorem computations_agree_sample : ∃ w : State Bool, w.flight = [] ∧
    ((w.parties false).manager.compStore.lookup (sampleFlooded.hash sampleEnv.toSodium)).isSome ∧
    ((w.parties true).manager.compStore.lookup (sampleFlooded.hash sampleEnv.toSodium)).isSome := by
  obtain ⟨w, hw, hflight, hstores⟩ := sampleFlood_taken
  have hheld : ((w.parties false).manager.compStore.lookup
      (sampleFlooded.hash sampleEnv.toSodium)).isSome := by rw [hstores false]; rfl
  refine ⟨w, hflight, hheld, computations_agree (p := sampleSetup) (n := false) byteDes_reads
    sampleComputer_backed sampleNetwork_fresh (run_of_takeAll_forall hw sampleFlood_brings)
    (by simp [hflight]) (.single ?_) hheld⟩
  simp [sampleLinks]

/-- Four messages arrive in the sample, of at most fifteen. -/
theorem arrivals_le_sample : arrivals sampleSetup sampleLinks sampleNetwork sampleFlood = 4 ∧
    arrivals sampleSetup sampleLinks sampleNetwork sampleFlood ≤ 15 := by
  obtain ⟨w, hw, -⟩ := sampleFlood_taken
  refine ⟨by decide +kernel, (arrivals_le byteDes_reads sampleComputer_backed sampleNetwork_fresh
    sampleFlood_brings hw).trans ?_⟩
  decide +kernel

end Sample

end Computations

end FheBlockchain.Chain.Gossip
