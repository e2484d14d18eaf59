import FheBlockchain.Net.Sending
import Mathlib.Data.List.Nodup

namespace FheBlockchain.Net.Interleaving

open Core.Transactions Library.Transitions Sending

variable {s s' : IoThread} {event : Event} {peer i : ℕ} {data : Bytes} {p p' : Peer}

section Steps

def spawned (peer : ℕ) : Event → ℕ
  | .send q _ => if q = peer then 1 else 0
  | .broadcast peers _ => peers.count peer
  | _ => 0

/-- What an event that does not block the thread makes of one peer. -/
inductive Change (event : Event) (peer : ℕ) (p : Peer) : Peer → Prop
  | queue (data : List Bytes) :
      data.length = spawned peer event → Change event peer p { p with queued := p.queued ++ data }
  | startSending (i : ℕ) (data : Bytes) :
      event = .resume peer i → p.queued[i]? = some data → p.sending = none →
      Change event peer p (p.startSending i data)
  | write (k : ℕ) (rest : Bytes) :
      p.sending = some rest → Change event peer p
        { p with wire := p.wire ++ rest.take k, sending := some (rest.drop k) }
  | written : p.sending = some [] → Change event peer p { p with sending := none }
  | startResponding (data : Bytes) :
      event = .respond peer data → p.responding = none →
      Change event peer p (p.startResponding data)
  | writeResponse (k : ℕ) (rest : Bytes) :
      p.responding = some rest → Change event peer p
        { p with wire := p.wire ++ rest.take k, responding := some (rest.drop k) }
  | responded : p.responding = some [] → Change event peer p { p with responding := none }

theorem Change.same (h : spawned peer event = 0) : Change event peer p p := by
  simpa using @Change.queue event peer p [] h.symm

theorem onPeer_change {f : Peer → Peer} {q : ℕ} (h : Change event q (s.peers q) (f (s.peers q)))
    (hother : ∀ peer, peer ≠ q → spawned peer event = 0) :
    Change event peer (s.peers peer) ((s.onPeer q f).peers peer) := by
  by_cases hq : peer = q
  · subst hq
    simpa [IoThread.onPeer] using h
  · have hsame : (s.onPeer q f).peers peer = s.peers peer := by
      simp [IoThread.onPeer, hq]
    rw [hsame]
    exact .same (hother peer hq)

theorem broadcast_queued (peer : ℕ) (peers : List ℕ) (s : IoThread) :
    (peers.foldl (fun s q ↦ s.onPeer q (.queue data)) s).stuck = s.stuck ∧
    (peers.foldl (fun s q ↦ s.onPeer q (.queue data)) s).peers peer =
      { s.peers peer with
        queued := (s.peers peer).queued ++ List.replicate (peers.count peer) data } := by
  induction peers generalizing s with
  | nil => simp
  | cons q peers ih =>
    obtain ⟨hstuck, hpeer⟩ := ih (s.onPeer q (.queue data))
    refine ⟨hstuck, hpeer.trans ?_⟩
    by_cases hq : peer = q
    · subst hq
      simp [IoThread.onPeer, Peer.queue, List.replicate_succ]
    · simp [IoThread.onPeer, hq, List.count_cons_of_ne (Ne.symm hq)]

/-- Either a coroutine blocks the thread, since another holds the mutex that it
asks for, or each peer changes in one of the ways above. -/
theorem step_cases (h : step s event = some s') :
    s.stuck = false ∧
    ((s' = { s with stuck := true } ∧ ∃ peer i, event = .resume peer i ∧
        (s.peers peer).queued ≠ [] ∧ (s.peers peer).sending.isSome) ∨
      (s'.stuck = false ∧ ∀ peer, Change event peer (s.peers peer) (s'.peers peer))) := by
  have hstuck : s.stuck = false := by
    by_contra hs
    simp [step, hs] at h
  refine ⟨hstuck, ?_⟩
  rw [step.eq_def, if_neg (by simp [hstuck])] at h
  cases event with
  | send q data =>
    cases h
    refine .inr ⟨hstuck, fun peer ↦ onPeer_change ?_ fun peer hq ↦ by simp [spawned, Ne.symm hq]⟩
    exact .queue [data] (by simp [spawned])
  | broadcast peers data =>
    cases h
    refine .inr ⟨(broadcast_queued 0 peers s).1.trans hstuck, fun peer ↦ ?_⟩
    rw [(broadcast_queued _ peers s).2]
    exact .queue _ (by simp [spawned])
  | resume q i =>
    simp only at h
    split at h
    · cases h
    · rename_i data hdata
      split_ifs at h with hsending
      · cases h
        refine .inl ⟨rfl, q, i, rfl, ?_, hsending⟩
        intro hnil
        simp [hnil] at hdata
      · cases h
        refine .inr ⟨hstuck, fun peer ↦ onPeer_change ?_ fun _ _ ↦ rfl⟩
        exact .startSending i data rfl hdata (by simpa using hsending)
  | write q k =>
    simp only at h
    split at h
    · cases h
    · rename_i rest hrest
      split_ifs at h
      cases h
      exact .inr ⟨hstuck, fun peer ↦ onPeer_change (.write k rest hrest) fun _ _ ↦ rfl⟩
  | written q =>
    simp only at h
    split_ifs at h with hrest
    cases h
    exact .inr ⟨hstuck, fun peer ↦ onPeer_change (.written hrest) fun _ _ ↦ rfl⟩
  | respond q data =>
    simp only at h
    split_ifs at h with hresponding
    cases h
    refine .inr ⟨hstuck, fun peer ↦ onPeer_change ?_ fun _ _ ↦ rfl⟩
    exact .startResponding data rfl (by simpa using hresponding)
  | writeResponse q k =>
    simp only at h
    split at h
    · cases h
    · rename_i rest hrest
      split_ifs at h
      cases h
      exact .inr ⟨hstuck, fun peer ↦ onPeer_change (.writeResponse k rest hrest) fun _ _ ↦ rfl⟩
  | responded q =>
    simp only at h
    split_ifs at h with hrest
    cases h
    exact .inr ⟨hstuck, fun peer ↦ onPeer_change (.responded hrest) fun _ _ ↦ rfl⟩

end Steps

section Deadlock

def unfinished (p : Peer) : ℕ := p.queued.length + if p.sending.isSome then 1 else 0

/-- A message is sent only to peers whose earlier messages have all been
written, and a broadcast meets no peer twice. -/
def SentWhenIdle (s : IoThread) : Event → Prop
  | .send peer _ => unfinished (s.peers peer) = 0
  | .broadcast peers _ => peers.Nodup ∧ ∀ peer ∈ peers, unfinished (s.peers peer) = 0
  | _ => True

instance (s : IoThread) (event : Event) : Decidable (SentWhenIdle s event) := by
  cases event <;> unfold SentWhenIdle <;> infer_instance

structure OneSender (s : IoThread) : Prop where
  free : s.stuck = false
  one : ∀ peer, unfinished (s.peers peer) ≤ 1

theorem SentWhenIdle.room (h : SentWhenIdle s event) (hone : unfinished (s.peers peer) ≤ 1) :
    unfinished (s.peers peer) + spawned peer event ≤ 1 := by
  cases event with
  | send q data =>
    have hidle : unfinished (s.peers q) = 0 := h
    by_cases hq : q = peer
    · subst hq
      simp [hidle, spawned]
    · simpa [spawned, hq] using hone
  | broadcast peers data =>
    obtain ⟨hnodup, hidle⟩ := h
    by_cases hmem : peer ∈ peers
    · simpa [hidle peer hmem, spawned] using List.nodup_iff_count_le_one.mp hnodup peer
    · simpa [spawned, List.count_eq_zero_of_not_mem hmem] using hone
  | _ => simpa [spawned] using hone

theorem Change.unfinished_le (h : Change event peer p p') :
    unfinished p' ≤ unfinished p + spawned peer event := by
  cases h with
  | queue data hdata =>
    simp only [unfinished, List.length_append, hdata]
    omega
  | startSending i data _ hi hsending =>
    have hlt : i < p.queued.length := (List.getElem?_eq_some_iff.mp hi).1
    unfold Peer.startSending
    split_ifs
    · simp only [unfinished, List.length_eraseIdx, if_pos hlt]
      omega
    · simp only [unfinished, List.length_eraseIdx, if_pos hlt, hsending, Option.isSome_some,
        Option.isSome_none, Bool.false_eq_true, if_true, if_false]
      omega
  | write k rest hrest => simp [unfinished, hrest]
  | written hrest =>
    simp only [unfinished, hrest, Option.isSome_none, Option.isSome_some, Bool.false_eq_true,
      if_true, if_false]
    omega
  | startResponding data _ _ =>
    unfold Peer.startResponding
    split_ifs <;> simp [unfinished]
  | writeResponse k rest _ => simp [unfinished]
  | responded _ => simp [unfinished]

theorem OneSender.step (h : OneSender s) (hidle : SentWhenIdle s event)
    (hstep : step s event = some s') : OneSender s' := by
  obtain ⟨-, ⟨-, q, i, -, hqueued, hsending⟩ | ⟨hfree, hchange⟩⟩ := step_cases hstep
  · have hone := h.one q
    have hlength := List.length_pos_of_ne_nil hqueued
    simp only [unfinished, hsending, if_true] at hone
    omega
  · refine ⟨hfree, fun peer ↦ ?_⟩
    have hle := (hchange peer).unfinished_le
    have hroom := hidle.room (h.one peer)
    omega

theorem resume_blocked (hfree : s.stuck = false) (hqueued : (s.peers peer).queued ≠ [])
    (hsending : (s.peers peer).sending.isSome) :
    step s (.resume peer 0) = some { s with stuck := true } := by
  cases hq : (s.peers peer).queued with
  | nil => exact absurd hq hqueued
  | cons data queued => simp [step, hfree, hq, hsending]

/-- Two coroutines of one peer can be resumed in such an order that the second
finds the mutex taken. -/
theorem two_sends_stick (hfree : s.stuck = false) (htwo : 2 ≤ unfinished (s.peers peer))
    (hdata : ∀ data ∈ (s.peers peer).queued, data ≠ []) :
    ∃ t, Run step (fun _ event ↦ ∃ peer, event = .resume peer 0) s t ∧ t.stuck = true := by
  cases hsending : (s.peers peer).sending with
  | some rest =>
    have hqueued : (s.peers peer).queued ≠ [] := by
      intro hnil
      simp [unfinished, hsending, hnil] at htwo
    have hstep := resume_blocked hfree hqueued (by simp [hsending])
    exact ⟨_, .next .start ⟨peer, rfl⟩ hstep, rfl⟩
  | none =>
    simp only [unfinished, hsending, Option.isSome_none, Bool.false_eq_true, if_false] at htwo
    obtain ⟨first, second, queued, hqueued⟩ : ∃ first second queued,
        (s.peers peer).queued = first :: second :: queued := by
      match hq : (s.peers peer).queued with
      | [] | [_] => simp [hq] at htwo
      | first :: second :: queued => exact ⟨first, second, queued, rfl⟩
    have hfirst : first ≠ [] := hdata first (by simp [hqueued])
    have hstart : step s (.resume peer 0) = some (s.onPeer peer (.startSending 0 first)) := by
      simp [step, hfree, hqueued, hsending]
    have hblocked := @resume_blocked (s.onPeer peer (.startSending 0 first)) peer hfree
      (by simp [IoThread.onPeer, Peer.startSending, hfirst, hqueued])
      (by simp [IoThread.onPeer, Peer.startSending, hfirst])
    exact ⟨_, .next (.next .start ⟨peer, rfl⟩ hstart) ⟨peer, rfl⟩ hblocked, rfl⟩

theorem two_unfinished (hstep : step s event = some s') (hbusy : ¬ SentWhenIdle s event) :
    s'.stuck = false ∧ ∃ peer, 2 ≤ unfinished (s'.peers peer) := by
  have hfree := (step_cases hstep).1
  rw [step.eq_def, if_neg (by simp [hfree])] at hstep
  cases event with
  | send q data =>
    cases hstep
    refine ⟨hfree, q, ?_⟩
    have hone : 0 < unfinished (s.peers q) := Nat.pos_of_ne_zero hbusy
    simp only [unfinished, IoThread.onPeer, Function.update_self, Peer.queue, List.length_append,
      List.length_singleton] at hone ⊢
    omega
  | broadcast peers data =>
    cases hstep
    refine ⟨(broadcast_queued 0 peers s).1.trans hfree, ?_⟩
    obtain ⟨peer, htwo⟩ :
        ∃ peer, 2 ≤ unfinished (s.peers peer) + peers.count peer := by
      by_contra hnone
      push Not at hnone
      refine hbusy ⟨List.nodup_iff_count_le_one.mpr fun peer ↦ ?_, fun peer hmem ↦ ?_⟩
      · have := hnone peer
        omega
      · have hcount := List.count_pos_iff.mpr hmem
        have := hnone peer
        omega
    refine ⟨peer, htwo.trans ?_⟩
    rw [(broadcast_queued _ peers s).2]
    simp only [unfinished, List.length_append, List.length_replicate]
    omega
  | _ => exact absurd trivial hbusy

/-- While messages are sent only to idle peers, no order in which the coroutines
run blocks the thread. After any other message, one of the orders does. -/
theorem never_stuck (s : IoThread) :
    (Run step SentWhenIdle start s → s.stuck = false) ∧
    ∀ event s', step s event = some s' → ¬ SentWhenIdle s event →
      (∀ peer, ∀ data ∈ (s'.peers peer).queued, data ≠ []) →
      ∃ t, Run step (fun _ event ↦ ∃ peer, event = .resume peer 0) s' t ∧ t.stuck = true := by
  constructor
  · intro hrun
    have hone : OneSender s := hrun.invariant ⟨rfl, fun _ ↦ Nat.zero_le 1⟩
      fun t event u ht hidle hstep ↦ ht.step hidle hstep
    exact hone.free
  · intro event s' hstep hbusy hdata
    obtain ⟨hfree, peer, htwo⟩ := two_unfinished hstep hbusy
    exact two_sends_stick hfree htwo (hdata peer)

/-- Two requests, the second sent after the first has been written. -/
theorem never_stuck_in_turn : ∃ s, Run step SentWhenIdle start s ∧ s.stuck = false ∧
    (s.peers 0).wire = [0, 0, 0, 0, 0, 0, 0, 4, 0, 0, 0, 0, 0, 0, 0, 6] := by
  have hreached : ∃ s, Run step SentWhenIdle start s ∧
      (s.peers 0).wire = [0, 0, 0, 0, 0, 0, 0, 4, 0, 0, 0, 0, 0, 0, 0, 6] :=
    reached_of_takeAll [.send 0 [0, 0, 0, 0, 0, 0, 0, 4], .resume 0 0, .write 0 3, .write 0 5,
      .written 0, .broadcast [1, 0] [0, 0, 0, 0, 0, 0, 0, 6], .resume 0 0, .resume 1 0,
      .write 0 8] _ (by decide +kernel)
  obtain ⟨s, hrun, hwire⟩ := hreached
  exact ⟨s, hrun, (never_stuck s).1 hrun, hwire⟩

/-- A list of two transactions is broadcast as two requests. -/
theorem two_requests_stick : ¬ ∀ s, Run step (fun _ _ ↦ True) start s → s.stuck = false := by
  intro h
  have hreached : ∃ s, Run step (fun _ _ ↦ True) start s ∧ s.stuck = true :=
    reached_of_takeAll [.broadcast [0] [0, 0, 0, 2, 0, 0, 0, 8, 10, 0],
      .broadcast [0] [0, 0, 0, 2, 0, 0, 0, 8, 10, 0], .resume 0 0, .resume 0 0] _
      (by decide +kernel)
  obtain ⟨s, hrun, hstuck⟩ := hreached
  exact Bool.false_ne_true ((h s hrun).symm.trans hstuck)

end Deadlock

section Whole

def left (rest : Option Bytes) : Bytes := rest.getD []

/-- The stream of the peer is made of the frames whose writing has started, one
behind the other. Only the last one may not be complete. -/
def Whole (p : Peer) : Prop :=
  ∃ frames : List Bytes, frames.Perm p.started ∧ p.wire <+: frames.flatten ∧
    (left p.sending = [] → left p.responding = [] → p.wire = frames.flatten)

def OneWriter (s : IoThread) : Event → Prop
  | .resume peer _ => left (s.peers peer).responding = []
  | .respond peer _ => left (s.peers peer).sending = []
  | _ => True

instance (s : IoThread) (event : Event) : Decidable (OneWriter s event) := by
  cases event <;> unfold OneWriter <;> infer_instance

/-- At most one of the two writers has bytes left, and these complete the frames
in the order in which they were started. -/
structure InOrder (p : Peer) : Prop where
  one : left p.sending = [] ∨ left p.responding = []
  bytes : p.wire ++ left p.sending ++ left p.responding = p.started.flatten

theorem InOrder.whole (h : InOrder p) : Whole p := by
  refine ⟨p.started, .refl _, ?_, fun hsending hresponding ↦ ?_⟩
  · rw [← h.bytes, List.append_assoc]
    exact List.prefix_append _ _
  · simpa [hsending, hresponding] using h.bytes

theorem InOrder.change (h : InOrder p) (hone : OneWriter s event) (hp : p = s.peers peer)
    (hchange : Change event peer p p') : InOrder p' := by
  have hbytes := h.bytes
  cases hchange with
  | queue data _ => exact ⟨h.one, hbytes⟩
  | startSending i data hevent _ hsending =>
    subst hevent hp
    have hresponding : left (s.peers peer).responding = [] := hone
    unfold Peer.startSending
    split_ifs
    · exact ⟨h.one, hbytes⟩
    · refine ⟨.inr hresponding, ?_⟩
      simp only [hsending, hresponding, List.append_nil] at hbytes
      simp only [hresponding, List.append_nil, List.flatten_append, ← hbytes]
      simp [left]
  | write k rest hrest =>
    simp only [hrest] at hbytes
    refine ⟨?_, ?_⟩
    · refine h.one.imp_left fun hnil ↦ ?_
      simp_all [left]
    · rw [← hbytes]
      simp [left]
  | written hrest =>
    simp only [hrest] at hbytes
    exact ⟨.inl rfl, hbytes⟩
  | startResponding data hevent hresponding =>
    subst hevent hp
    have hsending : left (s.peers peer).sending = [] := hone
    unfold Peer.startResponding
    split_ifs
    · exact ⟨h.one, hbytes⟩
    · refine ⟨.inl hsending, ?_⟩
      simp only [hresponding, hsending, List.append_nil] at hbytes
      simp only [hsending, List.append_nil, List.flatten_append, ← hbytes]
      simp [left]
  | writeResponse k rest hrest =>
    simp only [hrest] at hbytes
    have hone := h.one
    rw [hrest] at hone
    obtain hsending | hnil : left p.sending = [] ∨ rest = [] := hone
    · refine ⟨.inl hsending, ?_⟩
      simp only [hsending, List.append_nil] at hbytes ⊢
      rw [← hbytes]
      simp [left]
    · subst hnil
      refine ⟨.inr (by simp [left]), ?_⟩
      simpa [left] using hbytes
  | responded hrest =>
    simp only [hrest] at hbytes
    exact ⟨.inr rfl, hbytes⟩

/-- While no write starts before the other writer of the peer is through, frames
are written whole. -/
theorem frames_whole : ∀ s, Run step OneWriter start s → ∀ peer, Whole (s.peers peer) := by
  intro s hrun peer
  have hinv : ∀ peer, InOrder (s.peers peer) := by
    refine hrun.invariant (I := fun s ↦ ∀ peer, InOrder (s.peers peer)) ?_ ?_
    · exact fun _ ↦ ⟨.inl rfl, rfl⟩
    · intro t event u ht hone hstep q
      obtain ⟨-, ⟨rfl, -⟩ | ⟨-, hchange⟩⟩ := step_cases hstep
      · exact ht q
      · exact (ht q).change hone rfl (hchange q)
  exact (hinv peer).whole

/-- A response, then a message, each in two parts. -/
theorem frames_whole_in_turn : ∃ s, Run step OneWriter start s ∧ Whole (s.peers 0) ∧
    (s.peers 0).wire = [0, 0, 0, 1, 0, 0, 0, 2, 8, 0, 0, 0, 0] := by
  have hreached : ∃ s, Run step OneWriter start s ∧
      (s.peers 0).wire = [0, 0, 0, 1, 0, 0, 0, 2, 8, 0, 0, 0, 0] :=
    reached_of_takeAll [.respond 0 [0, 0, 0, 1, 0, 0, 0, 2, 8], .send 0 [0, 0, 0, 0, 0, 0, 0, 4],
      .writeResponse 0 4, .writeResponse 0 5, .resume 0 0, .write 0 4, .responded 0] _
      (by decide +kernel)
  obtain ⟨s, hrun, hwire⟩ := hreached
  exact ⟨s, hrun, frames_whole s hrun 0, hwire⟩

/-- A message is written while a response is under way. -/
theorem response_split :
    ¬ ∀ s, Run step (fun _ _ ↦ True) start s → ∀ peer, Whole (s.peers peer) := by
  intro h
  have hreached : ∃ s, Run step (fun _ _ ↦ True) start s ∧
      (s.peers 0).started = [[0, 0, 0, 2, 0, 0, 0, 6, 8, 1], [0, 0, 0, 0, 0, 0, 0, 4]] ∧
      (s.peers 0).wire = [0, 0, 0, 2, 0, 0, 0, 0, 0, 0, 0, 4] :=
    reached_of_takeAll [.respond 0 [0, 0, 0, 2, 0, 0, 0, 6, 8, 1], .writeResponse 0 4,
      .send 0 [0, 0, 0, 0, 0, 0, 0, 4], .resume 0 0, .write 0 8] _ (by decide +kernel)
  obtain ⟨s, hrun, hstarted, hwire⟩ := hreached
  obtain ⟨frames, hperm, hbegins, -⟩ := h s hrun 0
  rw [hstarted] at hperm
  rw [hwire] at hbegins
  -- neither of the two frames can be the first
  cases frames with
  | nil => simp at hbegins
  | cons first later =>
    have hfirst : first = [0, 0, 0, 2, 0, 0, 0, 6, 8, 1] ∨ first = [0, 0, 0, 0, 0, 0, 0, 4] := by
      simpa using hperm.mem_iff.mp (List.mem_cons_self (a := first) (l := later))
    obtain rfl | rfl := hfirst
    · simp at hbegins
    · simp at hbegins

end Whole

end FheBlockchain.Net.Interleaving
