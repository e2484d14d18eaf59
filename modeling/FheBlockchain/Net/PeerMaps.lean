import FheBlockchain.Library.Transitions
import FheBlockchain.Net.Connections

namespace FheBlockchain.Net.PeerMaps

open Library.FiniteMap Library.Transitions Connections ConnectionManager

variable {cm cm' : ConnectionManager} {key peerID : String} {q r : ℕ} {p p' : Peer}

section Invariant

def holders (cm : ConnectionManager) (id : String) : List ℕ :=
  (List.range cm.peers.length).filter fun q ↦
    (cm.peers[q]?).any fun p ↦ p.accepted && p.listening && p.id = id

theorem mem_holders : q ∈ holders cm key ↔
    ∃ p, cm.peers[q]? = some p ∧ p.accepted ∧ p.listening ∧ p.id = key := by
  simp only [holders, List.mem_filter, List.mem_range, Option.any_eq_true, Bool.and_eq_true,
    decide_eq_true_eq, and_assoc]
  constructor
  · exact fun ⟨_, h⟩ ↦ h
  · exact fun ⟨p, hp, h⟩ ↦ ⟨(List.getElem?_eq_some_iff.mp hp).1, p, hp, h⟩

def Reached (cm : ConnectionManager) (peerID : String) (connected : Option (String × ℕ)) : Prop :=
  ∀ remote ∈ connected, ¬ cm.outboundFull ∧ addrAndPortToStr remote.1 remote.2 = peerID

instance (connected : Option (String × ℕ)) : Decidable (Reached cm peerID connected) :=
  inferInstanceAs (Decidable (∀ remote ∈ connected, _))

structure Sound (cm : ConnectionManager) : Prop where
  inboundLim : (cm.inboundPeerMap.keys.card : ℤ) ≤ cm.inboundPeersLim
  outboundLim : (cm.outboundPeerMap.keys.card : ℤ) ≤ cm.outboundPeersLim
  inbound : ∀ key peer, cm.inboundPeerMap.lookup key = some peer →
    ∃ q p, peer = some q ∧ cm.peers[q]? = some p ∧ p.id = key
  outbound : ∀ key peer, cm.outboundPeerMap.lookup key = some peer →
    ∃ q p, peer = some q ∧ cm.peers[q]? = some p ∧ p.id = key
  removal : ∀ q cm', happen cm (.disconnect q) = some (.ok cm') →
    cm'.outboundPeerMap = cm.outboundPeerMap ∧
      ∀ key r, r ≠ q → cm.inboundPeerMap.lookup key = some (some r) →
        cm'.inboundPeerMap.lookup key = some (some r)

/-- The condition of the theorem below on an event. -/
def Allowed : Except NullPeer ConnectionManager → Event → Prop
  | .ok cm, .accept remote => holders cm (addrAndPortToStr remote.1 remote.2) = []
  | .ok cm, .sendToPeer addr port connected =>
    (cm.inboundPeerMap.lookup (addrAndPortToStr addr port)).isSome ∨
      (cm.outboundPeerMap.lookup (addrAndPortToStr addr port)).isSome ∨
      Reached cm (addrAndPortToStr addr port) connected
  | .ok cm, .getAddr peer addr port =>
    ∃ q ∈ (cm.peers[peer]?.bind fun p ↦ cm.inboundPeerMap.lookup p.id).join,
      ∀ r ∈ holders cm (addrAndPortToStr addr port), r = q
  | _, _ => True

instance : ∀ s event, Decidable (Allowed s event)
  | .ok cm, .accept remote =>
    inferInstanceAs (Decidable (holders cm (addrAndPortToStr remote.1 remote.2) = []))
  | .ok cm, .sendToPeer addr port connected =>
    inferInstanceAs (Decidable ((cm.inboundPeerMap.lookup (addrAndPortToStr addr port)).isSome ∨
      (cm.outboundPeerMap.lookup (addrAndPortToStr addr port)).isSome ∨
      Reached cm (addrAndPortToStr addr port) connected))
  | .ok cm, .getAddr peer addr port =>
    inferInstanceAs (Decidable (∃ q ∈ (cm.peers[peer]?.bind fun p ↦
      cm.inboundPeerMap.lookup p.id).join, ∀ r ∈ holders cm (addrAndPortToStr addr port), r = q))
  | .ok _, .disconnect _ | .ok _, .asyncBroadcast | .ok _, .startSync _ | .error _, _ =>
    inferInstanceAs (Decidable True)

structure Ordered (cm : ConnectionManager) : Prop where
  inboundLim : (cm.inboundPeerMap.keys.card : ℤ) ≤ cm.inboundPeersLim
  outboundLim : (cm.outboundPeerMap.keys.card : ℤ) ≤ cm.outboundPeersLim
  inbound : ∀ key peer, cm.inboundPeerMap.lookup key = some peer →
    ∃ q, peer = some q ∧ q ∈ holders cm key
  outbound : ∀ key peer, cm.outboundPeerMap.lookup key = some peer →
    ∃ q p, peer = some q ∧ cm.peers[q]? = some p ∧ p.accepted = false ∧ p.id = key
  distinct : ∀ key q r, q ∈ holders cm key → r ∈ holders cm key → q = r

end Invariant

section Operations

theorem getElem?_makePeer : (cm.makePeer p).peers[q]? = some p' ↔
    cm.peers[q]? = some p' ∨ (q = cm.peers.length ∧ p' = p) := by
  change (cm.peers ++ [p])[q]? = some p' ↔ _
  rw [List.getElem?_append]
  split_ifs with hq
  · refine ⟨.inl, fun h ↦ h.resolve_right fun ⟨hlen, _⟩ ↦ ?_⟩
    omega
  · have hnone : cm.peers[q]? = none := List.getElem?_eq_none (Nat.le_of_not_lt hq)
    rw [hnone]
    by_cases hlen : q = cm.peers.length
    · simp [hlen, eq_comm]
    · have hsub : q - cm.peers.length ≠ 0 := by omega
      simp [hlen, hsub]

theorem mem_holders_makePeer : q ∈ holders (cm.makePeer p) key ↔
    q ∈ holders cm key ∨
      (q = cm.peers.length ∧ p.accepted ∧ p.listening ∧ p.id = key) := by
  simp only [mem_holders, getElem?_makePeer]
  constructor
  · rintro ⟨r, hr | ⟨hq, rfl⟩, h⟩
    · exact .inl ⟨r, hr, h⟩
    · exact .inr ⟨hq, h⟩
  · rintro (⟨r, hr, h⟩ | ⟨hq, h⟩)
    · exact ⟨r, .inl hr, h⟩
    · exact ⟨p, .inr ⟨hq, rfl⟩, h⟩

theorem card_insert_le {m : PeerMap} {lim : ℤ} {peer : Option ℕ} (hle : (m.keys.card : ℤ) ≤ lim)
    (hroom : (m.keys.card : ℤ) ≠ lim) : (((m.insert key peer).keys.card : ℕ) : ℤ) ≤ lim := by
  rw [keys_insert]
  have := Finset.card_insert_le key m.keys
  omega

theorem index_of_lookup {m : PeerMap} {peer : Option ℕ} (h : m.lookup key = some peer) :
    m.index key = (peer, m) := by
  rw [PeerMap.index, h]

theorem Ordered.makePeer (h : Ordered cm) (hfree : p.accepted → holders cm p.id = []) :
    Ordered (cm.makePeer p) := by
  refine ⟨h.inboundLim, h.outboundLim, fun key peer hkey ↦ ?_, fun key peer hkey ↦ ?_,
    fun key q r hq hr ↦ ?_⟩
  · obtain ⟨q, hpeer, hq⟩ := h.inbound key peer hkey
    exact ⟨q, hpeer, mem_holders_makePeer.mpr (.inl hq)⟩
  · obtain ⟨q, p', hpeer, hq, hp'⟩ := h.outbound key peer hkey
    exact ⟨q, p', hpeer, getElem?_makePeer.mpr (.inl hq), hp'⟩
  · obtain hq | ⟨rfl, haccepted, -, rfl⟩ := mem_holders_makePeer.mp hq
    · obtain hr | ⟨rfl, haccepted, -, rfl⟩ := mem_holders_makePeer.mp hr
      · exact h.distinct key q r hq hr
      · simp [hfree haccepted] at hq
    · obtain hr | ⟨rfl, -⟩ := mem_holders_makePeer.mp hr
      · simp [hfree haccepted] at hr
      · rfl

theorem Ordered.accept (h : Ordered cm) (remote : String × ℕ)
    (hfree : holders cm (addrAndPortToStr remote.1 remote.2) = []) : Ordered (cm.accept remote) := by
  have hmade : Ordered (cm.makePeer (.new remote true)) := h.makePeer fun _ ↦ hfree
  rw [ConnectionManager.accept, addToInbound]
  split_ifs with hfull
  · exact hmade
  · refine ⟨card_insert_le hmade.inboundLim hfull, hmade.outboundLim, fun key peer hkey ↦ ?_,
      hmade.outbound, hmade.distinct⟩
    change (Finmap.insert _ _ _).lookup _ = _ at hkey
    rw [lookup_insert_ite] at hkey
    split_ifs at hkey with heq
    · cases hkey
      exact ⟨_, rfl, mem_holders_makePeer.mpr (.inr ⟨rfl, rfl, rfl, heq.symm⟩)⟩
    · exact hmade.inbound key peer hkey

theorem Ordered.connect (h : Ordered cm) (remote : String × ℕ) :
    Ordered (cm.connectToPeer remote) := by
  have hmade : Ordered (cm.makePeer (.new remote false)) := h.makePeer fun hfalse ↦ by cases hfalse
  rw [connectToPeer, addToOutbound]
  split_ifs with hfull
  · exact hmade
  · refine ⟨hmade.inboundLim, card_insert_le hmade.outboundLim hfull, hmade.inbound,
      fun key peer hkey ↦ ?_, hmade.distinct⟩
    change (Finmap.insert _ _ _).lookup _ = _ at hkey
    rw [lookup_insert_ite] at hkey
    split_ifs at hkey with heq
    · cases hkey
      exact ⟨_, _, rfl, getElem?_makePeer.mpr (.inr ⟨rfl, rfl⟩), rfl, heq.symm⟩
    · exact hmade.outbound key peer hkey

theorem Ordered.sendToPeer (h : Ordered cm) (addr : String) (port : ℤ)
    (connected : Option (String × ℕ))
    (hreached : (cm.inboundPeerMap.lookup (addrAndPortToStr addr port)).isSome ∨
      (cm.outboundPeerMap.lookup (addrAndPortToStr addr port)).isSome ∨
      Reached cm (addrAndPortToStr addr port) connected) :
    ∃ cm', cm.sendToPeer addr port connected = .ok cm' ∧ Ordered cm' := by
  rw [ConnectionManager.sendToPeer.eq_def]
  cases hin : cm.inboundPeerMap.lookup (addrAndPortToStr addr port) with
  | some peer =>
    obtain ⟨q, rfl, -⟩ := h.inbound _ _ hin
    rw [if_pos (by simp [hin]), index_of_lookup hin]
    exact ⟨cm, rfl, h⟩
  | none =>
    rw [if_neg (by simp [hin])]
    cases hout : cm.outboundPeerMap.lookup (addrAndPortToStr addr port) with
    | some peer =>
      obtain ⟨q, p, rfl, -⟩ := h.outbound _ _ hout
      rw [if_pos (by simp), index_of_lookup hout]
      exact ⟨cm, rfl, h⟩
    | none =>
      rw [if_neg (by simp)]
      cases connected with
      | none => exact ⟨cm, rfl, h⟩
      | some remote =>
        obtain ⟨hroom, hid⟩ : ¬ cm.outboundFull ∧ _ := by
          simpa [hin, hout, Reached] using hreached
        have hlookup : (cm.connectToPeer remote).outboundPeerMap.lookup
            (addrAndPortToStr addr port) = some (some cm.peers.length) := by
          rw [connectToPeer, addToOutbound, if_neg (by exact hroom)]
          exact hid ▸ Finmap.lookup_insert _
        simp only [index_of_lookup hlookup]
        exact ⟨cm.connectToPeer remote, rfl, h.connect remote⟩

theorem mem_holders_update {addr : String} {port : ℤ} (hq : q ∈ holders cm peerID) :
    r ∈ holders { cm with peers := cm.peers.modify q (.updateAddrInfo addr port) } key ↔
      (r ≠ q ∧ r ∈ holders cm key) ∨ (r = q ∧ addrAndPortToStr addr port = key) := by
  obtain ⟨p, hp, haccepted, hlistening, -⟩ := mem_holders.mp hq
  simp only [mem_holders, List.getElem?_modify]
  by_cases hr : r = q
  · subst hr
    simp [hp, Peer.updateAddrInfo, haccepted, hlistening]
  · simp [hr, Ne.symm hr]

def moved (m : PeerMap) (peerID id : String) (q : ℕ) : PeerMap :=
  if peerID ≠ id then (m.insert id (some q)).erase peerID else m.insert id (some q)

theorem lookup_moved {m : PeerMap} {id : String} : (moved m peerID id q).lookup key =
    if key = id then some (some q) else if key = peerID then none else m.lookup key := by
  unfold moved
  split_ifs with hne <;> simp only [lookup_erase_ite, lookup_insert_ite] <;> split_ifs <;> simp_all

theorem card_moved_le {m : PeerMap} {id : String} (h : peerID ∈ m.keys) :
    (moved m peerID id q).keys.card ≤ m.keys.card := by
  unfold moved
  split_ifs with hne
  · rw [Finmap.keys_erase, keys_insert, Finset.card_erase_of_mem (Finset.mem_insert_of_mem h)]
    have := Finset.card_insert_le id m.keys
    omega
  · obtain rfl : peerID = id := not_not.mp hne
    rw [keys_insert, Finset.insert_eq_of_mem h]

theorem holders_id (hq : q ∈ holders cm key) (hq' : q ∈ holders cm peerID) : key = peerID := by
  obtain ⟨p, hp, -, -, rfl⟩ := mem_holders.mp hq
  obtain ⟨p', hp', -, -, rfl⟩ := mem_holders.mp hq'
  rw [Option.some.inj (hp.symm.trans hp')]

theorem Ordered.update (h : Ordered cm) {addr : String} {port : ℤ}
    (hq : cm.inboundPeerMap.lookup peerID = some (some q))
    (hfree : ∀ r ∈ holders cm (addrAndPortToStr addr port), r = q) :
    ∃ cm', cm.updateInbPeerAddrInfo peerID addr port = .ok cm' ∧ Ordered cm' := by
  obtain ⟨_, ⟨⟩, hholder⟩ := h.inbound _ _ hq
  obtain ⟨p, hp, haccepted, -, -⟩ := mem_holders.mp hholder
  have hmem {r key} := @mem_holders_update cm key peerID q r addr port hholder
  rw [updateInbPeerAddrInfo, index_of_lookup hq]
  refine ⟨_, rfl, ?_, h.outboundLim, fun key peer hkey ↦ ?_, fun key peer hkey ↦ ?_,
    fun key r s hr hs ↦ ?_⟩
  · have hkeys : peerID ∈ cm.inboundPeerMap.keys :=
      Finmap.mem_keys.mpr (Finmap.mem_of_lookup_eq_some hq)
    have hcard := @card_moved_le peerID q cm.inboundPeerMap (addrAndPortToStr addr port) hkeys
    exact (Int.ofNat_le.mpr hcard).trans h.inboundLim
  · change (moved cm.inboundPeerMap peerID _ q).lookup key = _ at hkey
    rw [lookup_moved] at hkey
    split_ifs at hkey with hid hold
    · cases hkey
      exact ⟨q, rfl, hmem.mpr (.inr ⟨rfl, hid.symm⟩)⟩
    · obtain ⟨r, rfl, hr⟩ := h.inbound key peer hkey
      refine ⟨r, rfl, hmem.mpr (.inl ⟨?_, hr⟩)⟩
      rintro rfl
      exact hold (holders_id hr hholder)
  · obtain ⟨r, p', rfl, hr, hconnected, rfl⟩ := h.outbound key peer hkey
    have hne : q ≠ r := by
      rintro rfl
      obtain rfl := Option.some.inj (hp.symm.trans hr)
      simp [haccepted] at hconnected
    exact ⟨r, p', rfl, by simp [hne, hr], hconnected, rfl⟩
  · obtain ⟨hrq, hr'⟩ | ⟨hrq, rfl⟩ := hmem.mp hr
    · obtain ⟨-, hs'⟩ | ⟨-, rfl⟩ := hmem.mp hs
      · exact h.distinct key r s hr' hs'
      · exact absurd (hfree r hr') hrq
    · obtain ⟨hsq, hs'⟩ | ⟨hsq, -⟩ := hmem.mp hs
      · exact absurd (hfree s hs') hsq
      · rw [hrq, hsq]

theorem mem_holders_hangUp :
    r ∈ holders { cm with peers := cm.peers.modify q ({ · with listening := false }) } key ↔
      r ≠ q ∧ r ∈ holders cm key := by
  simp only [mem_holders, List.getElem?_modify]
  by_cases hr : q = r
  · subst hr
    simp only [if_true, ne_eq, not_true_eq_false, false_and, iff_false]
    rintro ⟨p, hp, -, hlistening, -⟩
    cases hq : cm.peers[q]? <;> simp [hq] at hp
    simp [← hp] at hlistening
  · simp [hr, Ne.symm hr]

theorem Ordered.withoutEntry (h : Ordered cm) {m : PeerMap}
    (hcard : m.keys.card ≤ cm.inboundPeerMap.keys.card)
    (hentry : ∀ key peer, m.lookup key = some peer →
      cm.inboundPeerMap.lookup key = some peer ∧ q ∉ holders cm key) :
    Ordered { cm with
      peers := cm.peers.modify q ({ · with listening := false })
      inboundPeerMap := m } := by
  refine ⟨(Int.ofNat_le.mpr hcard).trans h.inboundLim, h.outboundLim, fun key peer hkey ↦ ?_,
    fun key peer hkey ↦ ?_, fun key r s hr hs ↦ ?_⟩
  · obtain ⟨hold, hother⟩ := hentry key peer hkey
    obtain ⟨r, rfl, hr⟩ := h.inbound key peer hold
    refine ⟨r, rfl, mem_holders_hangUp.mpr ⟨?_, hr⟩⟩
    rintro rfl
    exact hother hr
  · obtain ⟨r, p', rfl, hr, hconnected, rfl⟩ := h.outbound key peer hkey
    by_cases hrq : q = r
    · subst hrq
      exact ⟨q, { p' with listening := false }, rfl, by simp [hr], hconnected, rfl⟩
    · exact ⟨r, p', rfl, by simp [hrq, hr], hconnected, rfl⟩
  · exact h.distinct key r s (mem_holders_hangUp.mp hr).2 (mem_holders_hangUp.mp hs).2

theorem Ordered.hangUp (h : Ordered cm) (hnext : happen cm (.disconnect q) = some (.ok cm')) :
    Ordered cm' ∧ cm'.outboundPeerMap = cm.outboundPeerMap ∧
      ∀ key r, r ≠ q → cm.inboundPeerMap.lookup key = some (some r) →
        cm'.inboundPeerMap.lookup key = some (some r) := by
  obtain ⟨p, hp, hlistening, hcm'⟩ : ∃ p, cm.peers[q]? = some p ∧ p.listening = true ∧
      (let hungUp := { cm with peers := cm.peers.modify q ({ · with listening := false }) }
        if p.accepted then hungUp.removePeerFromInbound p.id else hungUp) = cm' := by
    cases hp : cm.peers[q]? with
    | none => simp [happen, hp] at hnext
    | some p =>
      cases hlistening : p.listening with
      | false => simp [happen, hp, hlistening] at hnext
      | true => exact ⟨p, rfl, hlistening, by simpa [happen, hp, hlistening] using hnext⟩
  subst hcm'
  cases haccepted : p.accepted with
  | true =>
    have hholder : q ∈ holders cm p.id := mem_holders.mpr ⟨p, hp, haccepted, hlistening, rfl⟩
    refine ⟨h.withoutEntry ?_ fun key peer hkey ↦ ?_, rfl, fun key r hr hkey ↦ ?_⟩
    · rw [Finmap.keys_erase]
      exact Finset.card_erase_le
    · rw [lookup_erase_ite] at hkey
      split_ifs at hkey with hid
      exact ⟨hkey, fun hq ↦ hid (holders_id hq hholder)⟩
    · change (Finmap.erase _ _).lookup _ = _
      rw [lookup_erase_ite, if_neg, hkey]
      rintro rfl
      obtain ⟨_, ⟨⟩, hr'⟩ := h.inbound _ _ hkey
      exact hr (h.distinct _ _ _ hr' hholder)
  | false =>
    refine ⟨h.withoutEntry le_rfl fun key peer hkey ↦ ⟨hkey, fun hq ↦ ?_⟩, rfl,
      fun key r hr hkey ↦ hkey⟩
    obtain ⟨p', hp', haccepted', -⟩ := mem_holders.mp hq
    obtain rfl := Option.some.inj (hp.symm.trans hp')
    simp [haccepted] at haccepted'

theorem Ordered.sound (h : Ordered cm) : Sound cm := by
  refine ⟨h.inboundLim, h.outboundLim, fun key peer hkey ↦ ?_, fun key peer hkey ↦ ?_,
    fun q cm' hnext ↦ (h.hangUp hnext).2⟩
  · obtain ⟨q, rfl, hq⟩ := h.inbound key peer hkey
    obtain ⟨p, hp, -, -, hid⟩ := mem_holders.mp hq
    exact ⟨q, p, rfl, hp, hid⟩
  · obtain ⟨q, p, rfl, hp, -, hid⟩ := h.outbound key peer hkey
    exact ⟨q, p, rfl, hp, hid⟩

theorem Ordered.not_hasNull (h : Ordered cm) :
    ¬ (cm.inboundPeerMap.hasNull ∨ cm.outboundPeerMap.hasNull) := by
  rintro (⟨key, -, hkey⟩ | ⟨key, -, hkey⟩)
  · obtain ⟨q, hq, -⟩ := h.inbound key none hkey
    cases hq
  · obtain ⟨q, p, hq, -⟩ := h.outbound key none hkey
    cases hq

theorem Ordered.happen (h : Ordered cm) {event : Event} (hallowed : Allowed (.ok cm) event)
    {s : Except NullPeer ConnectionManager} (hnext : happen cm event = some s) :
    ∃ cm', s = .ok cm' ∧ Ordered cm' := by
  cases event with
  | accept remote =>
    cases hnext
    exact ⟨_, rfl, h.accept remote hallowed⟩
  | sendToPeer addr port connected =>
    cases hnext
    exact h.sendToPeer addr port connected hallowed
  | getAddr peer addr port =>
    cases hp : cm.peers[peer]? with
    | none => simp [Connections.happen, hp] at hnext
    | some p =>
      cases hlistening : p.listening with
      | false => simp [Connections.happen, hp, hlistening] at hnext
      | true =>
        obtain ⟨q, hq, hfree⟩ := hallowed
        have hq : cm.inboundPeerMap.lookup p.id = some (some q) := by
          simpa [hp, Option.join_eq_some_iff] using hq
        obtain ⟨cm', hupdate, hordered⟩ := h.update hq hfree
        refine ⟨cm', ?_, hordered⟩
        obtain ⟨peers, hcollect⟩ : ∃ peers, cm'.collectPeers = .ok peers :=
          ⟨_, if_neg hordered.not_hasNull⟩
        have hhandled : cm.handleGetPeerAddrs addr port p.id = .ok (cm', peers) := by
          rw [handleGetPeerAddrs, hupdate]
          change (cm'.collectPeers >>= fun peers ↦ pure (cm', peers)) = _
          rw [hcollect]
          rfl
        simpa [Connections.happen, hp, hlistening, hhandled, Except.map] using hnext.symm
  | disconnect q =>
    cases s with
    | ok cm' => exact ⟨cm', rfl, (h.hangUp hnext).1⟩
    | error e =>
      cases hp : cm.peers[q]? with
      | none => simp [Connections.happen, hp] at hnext
      | some p => cases hlistening : p.listening <;> simp [Connections.happen, hp, hlistening] at hnext
  | asyncBroadcast =>
    cases hnext
    exact ⟨cm, if_neg h.not_hasNull, h⟩
  | startSync peerID =>
    cases hlookup : cm.outboundPeerMap.lookup peerID with
    | none => simp [Connections.happen, hlookup] at hnext
    | some peer =>
      obtain ⟨q, p, rfl, -⟩ := h.outbound _ _ hlookup
      refine ⟨cm, ?_, h⟩
      simpa [Connections.happen, hlookup, deref, Except.map] using hnext.symm

end Operations

section Runs

/-- While the events meet the condition, the maps stay sound and no null pointer
is dereferenced. -/
theorem peer_maps_sound (inboundPeersLim outboundPeersLim : ℤ) (hin : 0 ≤ inboundPeersLim)
    (hout : 0 ≤ outboundPeersLim) :
    ∀ s, Run step Allowed (.ok (setup inboundPeersLim outboundPeersLim)) s →
      ∃ cm, s = .ok cm ∧ Sound cm := by
  intro s hrun
  have hordered : ∃ cm, s = .ok cm ∧ Ordered cm := by
    refine hrun.invariant (I := fun s ↦ ∃ cm, s = .ok cm ∧ Ordered cm) ?_ ?_
    · refine ⟨_, rfl, ⟨by simpa [setup] using hin, by simpa [setup] using hout, ?_, ?_, ?_⟩⟩
      · intro key peer hkey
        simp [setup] at hkey
      · intro key peer hkey
        simp [setup] at hkey
      · intro key q r hq
        simp [holders, setup] at hq
    · rintro _ event u ⟨cm, rfl, hcm⟩ hallowed hstep
      exact hcm.happen hallowed hstep
  obtain ⟨cm, hs, hcm⟩ := hordered
  exact ⟨cm, hs, hcm.sound⟩

/-- A bootstrap connection, an accepted one that tells where it listens, another
one in its place after it has ended, and a broadcast. -/
theorem peer_maps_sound_sample : ∃ cm, Run step Allowed (.ok (setup 1 1)) (.ok cm) ∧ Sound cm ∧
    cm.inboundPeerMap.lookup "127.0.0.1:5001" = some (some 2) := by
  have hreached : ∃ s, Run step Allowed (.ok (setup 1 1)) s ∧ ∃ cm ∈ s.toOption,
      cm.inboundPeerMap.lookup "127.0.0.1:5001" = some (some 2) :=
    reached_of_takeAll [.sendToPeer "127.0.0.1" 5000 (some ("127.0.0.1", 5000)),
      .accept ("127.0.0.1", 40000), .getAddr 1 "127.0.0.1" 5001, .disconnect 1,
      .accept ("127.0.0.1", 40001), .getAddr 2 "127.0.0.1" 5001, .asyncBroadcast] _
      (by decide +kernel)
  obtain ⟨s, hrun, cm, hcm, hlookup⟩ := hreached
  obtain ⟨cm', rfl, hsound⟩ := peer_maps_sound 1 1 (by decide) (by decide) s hrun
  cases hcm
  exact ⟨cm, hrun, hsound, hlookup⟩

/-- A `GetAddr` on a connection that this side has opened. -/
theorem outbound_getAddr_null : ¬ ∀ inboundPeersLim outboundPeersLim : ℤ, 0 ≤ inboundPeersLim →
    0 ≤ outboundPeersLim →
    ∀ s, Run step (fun _ _ ↦ True) (.ok (setup inboundPeersLim outboundPeersLim)) s →
      ∃ cm, s = .ok cm ∧ Sound cm := by
  intro h
  have hreached : ∃ s, Run step (fun _ _ ↦ True) (.ok (setup 128 8)) s ∧ s.toOption.isNone :=
    reached_of_takeAll [.sendToPeer "127.0.0.1" 5000 (some ("127.0.0.1", 5000)),
      .getAddr 0 "127.0.0.1" 5000] _ (by decide +kernel)
  obtain ⟨s, hrun, hnull⟩ := hreached
  obtain ⟨cm, rfl, -⟩ := h 128 8 (by decide) (by decide) s hrun
  exact Bool.false_ne_true hnull

end Runs

end FheBlockchain.Net.PeerMaps
