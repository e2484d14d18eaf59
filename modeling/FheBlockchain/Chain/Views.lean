import FheBlockchain.Chain.RoutingFacts
import FheBlockchain.Library.Flooding

namespace FheBlockchain.Chain.Views

open Core.Transactions Core.Blocks Core.Messages Computer.Computations Computer.Messages Store.Pools
open Manager Routing RoutingFacts
open Library.Execution
open Library.Flooding (filterMap_erase_none filterMap_erase_some getElem?_place place)

section Families

/-- The messages about one kind of item. -/
inductive Family
  | greeting
  | block
  | transaction
  | computation
deriving DecidableEq

def family : Message → Family
  | .hello | .invalid => .greeting
  | .invBlock _ | .getBlock _ | .infoBlock _ | .syncBlock _ => .block
  | .invTransaction _ | .getTransaction _ | .infoTransaction _ | .syncTransactions
  | .listTransactions _ => .transaction
  | .invComputation _ | .getComputation _ | .infoComputation _ => .computation

def messages (r : Reaction) : List Message := r.response.toList ++ r.broadcasts ++ r.toSyncPeer

variable {fhe : OpenFhe} {p : Setup fhe} {s t : ChainManager} {msg msg' : Message} {r : Reaction}

theorem family_of_routed (h : Routed p s msg r t) (hmsg : msg' ∈ messages r) :
    family msg' = family msg ∨ msg' = .syncTransactions := by
  cases h with
  | askAll =>
    simp only [messages, Reaction.broadcast, Option.toList_none, List.nil_append, List.append_nil,
      List.mem_map] at hmsg
    obtain ⟨txid, -, rfl⟩ := hmsg
    exact .inl rfl
  | silent => simp [messages, Reaction.silent] at hmsg
  | _ =>
    simp only [messages, Reaction.respond, Reaction.broadcast, Reaction.toSync, Option.toList_some,
      Option.toList_none, List.append_nil, List.nil_append, List.mem_singleton] at hmsg
    subst hmsg
    first | exact .inl rfl | exact .inr rfl

end Families

/-- What a manager holds of one kind of item, and the messages that flood it. -/
structure View (K A : Type) where
  held : ChainManager → K → Option A
  read : Message → Option (Library.Flooding.Message K A)

namespace View

variable {K A N : Type} (v : View K A)

def packet (packet : Packet N) : Option (Library.Flooding.Packet N K A) :=
  (v.read packet.message).map fun msg ↦ ⟨packet.sender, packet.receiver, msg⟩

def state (w : State N) : Library.Flooding.State N K A where
  held n := v.held (w.parties n).manager
  flight := w.flight.filterMap v.packet

variable {v} {fhe : OpenFhe} {p : Setup fhe} {links : N → List N} {w w' : State N} {n m : N}
variable {asker syncPeer : Option N} {r : Reaction}

section Packets

theorem packets_silent : packets links n asker syncPeer .silent = [] := by
  simp [packets, Reaction.silent]

theorem packets_respond (msg : Message) :
    packets links n (some m) syncPeer (.respond msg) = [⟨n, m, msg⟩] := by
  simp [packets, Reaction.respond]

theorem packets_broadcast (msgs : List Message) :
    packets links n asker syncPeer (.broadcast msgs) = msgs.flatMap (toAll links n) := by
  cases asker <;> cases syncPeer <;> simp [packets, Reaction.broadcast]

theorem mem_packets {packet : Packet N} (h : packet ∈ packets links n asker syncPeer r) :
    packet.message ∈ messages r := by
  simp only [packets, toAll, List.mem_append, List.mem_flatMap, List.mem_map] at h
  simp only [messages, List.mem_append]
  rcases h with (⟨_, -, msg, hmsg, rfl⟩ | ⟨msg, hmsg, _, -, rfl⟩) | ⟨_, -, msg, hmsg, rfl⟩
  · exact .inl (.inl hmsg)
  · exact .inl (.inr hmsg)
  · exact .inr hmsg

theorem filterMap_unread (h : ∀ msg ∈ messages r, v.read msg = none) :
    (packets links n asker syncPeer r).filterMap v.packet = [] := by
  rw [List.filterMap_eq_nil_iff]
  intro packet hpacket
  rw [View.packet, h _ (mem_packets hpacket)]
  rfl

theorem filterMap_toAll {msg : Message} {msg' : Library.Flooding.Message K A}
    (h : v.read msg = some msg') :
    (toAll links n msg).filterMap v.packet = (links n).map fun m ↦ ⟨n, m, msg'⟩ := by
  rw [toAll, List.filterMap_map]
  exact List.filterMap_eq_map_iff_forall_eq_some.mpr fun m _ ↦ by simp [View.packet, h]

end Packets

theorem state_send (packets : List (Packet N)) :
    v.state (w.send packets) = (v.state w).send (packets.filterMap v.packet) := by
  simp only [View.state, State.send, List.filterMap_append, Library.Flooding.State.send]

theorem state_unread {packet : Packet N} (h : v.read packet.message = none) :
    v.state (w.send [packet]) = v.state w := by
  have hpacket : v.packet packet = none := by
    rw [View.packet, h]
    rfl
  rw [state_send, List.filterMap_cons, hpacket]
  simp [Library.Flooding.State.send]

theorem state_erase {i : ℕ} {packet : Packet N} (hi : w.flight[i]? = some packet) (hmsg : v.read packet.message = none) :
    v.state { w with flight := w.flight.eraseIdx i } = v.state w := by
  have hunseen : v.packet packet = none := by
    rw [View.packet, hmsg]
    rfl
  simp only [View.state, filterMap_erase_none hi hunseen]

variable [DecidableEq N]

theorem state_setParty {party : Party N} (h : party.manager = (w.parties n).manager) :
    v.state (w.setParty n party) = v.state w := by
  have hheld (m : N) : (Function.update w.parties n party m).manager = (w.parties m).manager := by
    rw [Function.update_apply]
    split_ifs with hm
    · rw [h, hm]
    · rfl
  simp only [View.state, State.setParty, hheld]

theorem state_startSync {peer : Option N} (h : step p links w (.startSync n peer) = some w')
    (hread : v.read (.syncBlock 1) = none) : v.state w' = v.state w := by
  simp only [step] at h
  split_ifs at h
  cases peer with
  | none =>
    cases h
    exact state_setParty rfl
  | some m =>
    cases h
    exact (state_unread hread).trans (state_setParty rfl)

theorem state_perform {x : M Reaction} (h : w.perform links n asker x = some w') :
    let held := Function.update (v.state w).held n (v.held (w'.parties n).manager)
    (∃ r, x (w.parties n).manager = .ok r (w'.parties n).manager ∧
      v.state w' = ({ v.state w with held := held }).send
        ((packets links n asker (w.parties n).syncPeer r).filterMap v.packet)) ∨
    ∃ e, x (w.parties n).manager = .error (.throw e) (w'.parties n).manager ∧
      v.state w' = { v.state w with held := held } := by
  have hheld (party : Party N) : (fun m ↦ v.held (Function.update w.parties n party m).manager) =
      Function.update (fun m ↦ v.held (w.parties m).manager) n (v.held party.manager) := by
    funext m
    simp only [Function.update_apply]
    split_ifs <;> rfl
  simp only [State.perform] at h
  split at h
  next r t ht =>
    split_ifs at h
    cases h
    refine .inl ⟨r, by simp [State.send, State.setParty, ht], ?_⟩
    simp only [View.state, State.send, State.setParty, hheld, List.filterMap_append,
      Library.Flooding.State.send, Function.update_self]
  next e t ht =>
    cases h
    refine .inr ⟨e, by simp [State.setParty, ht], ?_⟩
    simp only [View.state, State.setParty, hheld, Function.update_self]
  next => cases h

theorem state_of_ok {x : M Reaction} {t : ChainManager} (h : w.perform links n asker x = some w')
    (hx : x (w.parties n).manager = .ok r t) :
    v.state w' = ({ v.state w with held := Function.update (v.state w).held n (v.held t) }).send
      ((packets links n asker (w.parties n).syncPeer r).filterMap v.packet) := by
  rcases state_perform (v := v) h with ⟨r', hx', he⟩ | ⟨e, hx', -⟩
  · rw [hx] at hx'
    cases hx'
    exact he
  · rw [hx] at hx'
    cases hx'

theorem update_same {t : ChainManager} (h : v.held t = v.held (w.parties n).manager) :
    Function.update (v.state w).held n (v.held t) = (v.state w).held := by
  rw [h]
  exact Function.update_eq_self n (v.state w).held

theorem state_of_same {x : M Reaction} (h : w.perform links n asker x = some w')
    (hx : x (w.parties n).manager = .ok r (w.parties n).manager) :
    v.state w' = (v.state w).send
      ((packets links n asker (w.parties n).syncPeer r).filterMap v.packet) := by
  rw [state_of_ok h hx, update_same rfl]

theorem state_of_unseen {x : M Reaction} (h : w.perform links n asker x = some w')
    (hheld : Post x (w.parties n).manager
      (fun r t ↦ (∀ msg ∈ messages r, v.read msg = none) ∧ v.held t = v.held (w.parties n).manager)
      fun _ t ↦ v.held t = v.held (w.parties n).manager) :
    v.state w' = v.state w := by
  rw [Post] at hheld
  rcases state_perform (v := v) h with ⟨r, hx, he⟩ | ⟨e, hx, he⟩
  · rw [hx] at hheld
    rw [he, hheld.2, filterMap_unread hheld.1, update_same rfl]
    simp [Library.Flooding.State.send]
  · rw [hx] at hheld
    rw [he, update_same hheld]

section Deliveries

variable {P : Library.Flooding.Network N K A} {i : ℕ} {packet : Packet N}

/-- A delivery that the view sees is one of the flooding. -/
theorem step_deliver [DecidableEq K] {msg : Library.Flooding.Message K A}
    (hi : w.flight[i]? = some packet) (hmsg : v.read packet.message = some msg) :
    P.step (v.state w) (.deliver (place v.packet w.flight i)) =
      some (P.react ⟨packet.sender, packet.receiver, msg⟩
        (v.state { w with flight := w.flight.eraseIdx i })) := by
  have hseen : v.packet packet = some ⟨packet.sender, packet.receiver, msg⟩ := by
    rw [View.packet, hmsg]
    rfl
  rw [Library.Flooding.Network.step, View.state, getElem?_place hi hseen, Option.map_some]
  simp only [View.state, filterMap_erase_some hi hseen]

end Deliveries

end View

end FheBlockchain.Chain.Views
