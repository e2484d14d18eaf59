import FheBlockchain.Library.Transitions
import Mathlib.Algebra.BigOperators.Ring.Finset
import Mathlib.Algebra.Order.BigOperators.Group.Finset
import Mathlib.Data.Fintype.BigOperators
import Mathlib.Logic.Relation

namespace FheBlockchain.Library.Flooding

open Transitions

/-- A node tells that it holds an item, asks for one, or sends it. -/
inductive Message (K A : Type)
  | inv (key : K)
  | get (key : K)
  | info (item : A)

structure Packet (N K A : Type) where
  sender : N
  receiver : N
  message : Message K A

/-- Nodes that flood their items: each one announces a new item to its links. -/
structure Network (N K A : Type) where
  key : A → K
  links : N → List N
  accepts : N → A → Bool

structure State (N K A : Type) where
  held : N → K → Option A
  flight : List (Packet N K A)

/-- An item is given to a node from outside, a node asks its links for some,
loses all but some, or the packet at some place in flight arrives. A packet may
also come from outside. -/
inductive Event (N K A : Type)
  | submit (n : N) (a : A)
  | request (n : N) (ks : List K)
  | packet (p : Packet N K A)
  | shrink (n : N) (keep : K → Bool)
  | deliver (i : ℕ)

namespace Event

variable {N K A : Type}

def isDelivery : Event N K A → Bool
  | .deliver _ => true
  | .submit _ _ | .request _ _ | .packet _ | .shrink _ _ => false

def isShrink : Event N K A → Bool
  | .shrink _ _ => true
  | .submit _ _ | .request _ _ | .packet _ | .deliver _ => false

def submitted : Event N K A → Option A
  | .submit _ a => some a
  | .packet ⟨_, _, .info a⟩ => some a
  | .packet ⟨_, _, .inv _⟩ | .packet ⟨_, _, .get _⟩ => none
  | .request _ _ | .shrink _ _ | .deliver _ => none

end Event

variable {N K A : Type}

namespace State

def empty : State N K A where
  held _ _ := none
  flight := []

def send (packets : List (Packet N K A)) (s : State N K A) : State N K A :=
  { s with flight := s.flight ++ packets }

@[simp]
theorem send_held (packets : List (Packet N K A)) (s : State N K A) :
    (s.send packets).held = s.held := rfl

theorem subset_send (packets : List (Packet N K A)) (s : State N K A) :
    s.flight ⊆ (s.send packets).flight := List.subset_append_left _ _

variable [DecidableEq N]

def shrink (n : N) (keep : K → Bool) (s : State N K A) : State N K A :=
  { s with held := Function.update s.held n fun k ↦ if keep k then s.held n k else none }

theorem shrink_held (n m : N) (keep : K → Bool) (k : K) (s : State N K A) :
    (s.shrink n keep).held m k = if m = n ∧ keep k = false then none else s.held m k := by
  by_cases hm : m = n
  · subst hm
    cases hk : keep k <;> simp [shrink, hk]
  · simp [shrink, hm]

variable [DecidableEq K]

def store (n : N) (k : K) (a : A) (s : State N K A) : State N K A :=
  { s with held := Function.update s.held n (Function.update (s.held n) k (some a)) }

theorem store_held (n m : N) (k x : K) (a : A) (s : State N K A) :
    (s.store n k a).held m x = if m = n ∧ x = k then some a else s.held m x := by
  by_cases hm : m = n
  · subst hm
    by_cases hx : x = k
    · subst hx
      simp [store]
    · simp [store, hx]
  · simp [store, hm]

end State

namespace Network

variable (P : Network N K A)

def takes (s : State N K A) (n : N) (a : A) : Bool :=
  (s.held n (P.key a)).isNone && P.accepts n a

def announce (n : N) (k : K) : List (Packet N K A) := (P.links n).map fun m ↦ ⟨n, m, .inv k⟩

variable {P} in
theorem takes_iff {s : State N K A} {n : N} {a : A} :
    P.takes s n a = true ↔ s.held n (P.key a) = none ∧ P.accepts n a = true := by
  simp [takes]

variable [DecidableEq N] [DecidableEq K]

def react (p : Packet N K A) (s : State N K A) : State N K A :=
  match p.message with
  | .inv k =>
    if (s.held p.receiver k).isSome then s else s.send [⟨p.receiver, p.sender, .get k⟩]
  | .get k =>
    match s.held p.receiver k with
    | none => s
    | some a => s.send [⟨p.receiver, p.sender, .info a⟩]
  | .info a =>
    if P.takes s p.receiver a then
      (s.store p.receiver (P.key a) a).send (P.announce p.receiver (P.key a))
    else s

/-- An item from outside is announced even if the node does not take it. -/
def submit (n : N) (a : A) (s : State N K A) : State N K A :=
  (if P.takes s n a then s.store n (P.key a) a else s).send (P.announce n (P.key a))

def step (s : State N K A) : Event N K A → Option (State N K A)
  | .submit n a => some (P.submit n a s)
  | .request n ks => some (s.send (ks.flatMap fun k ↦ (P.links n).map fun m ↦ ⟨n, m, .get k⟩))
  | .packet p => some (s.send [p])
  | .shrink n keep => some (s.shrink n keep)
  | .deliver i => s.flight[i]?.map fun p ↦ P.react p { s with flight := s.flight.eraseIdx i }

end Network

variable {P : Network N K A} {s s' : State N K A} {U : A → Prop} {n : N} {k : K} {a : A}

section Integrity

/-- The items that are held or on their way are all among the given ones, and
held under their own keys. -/
structure Sane (P : Network N K A) (U : A → Prop) (s : State N K A) : Prop where
  held : ∀ {n k a}, s.held n k = some a → P.key a = k ∧ P.accepts n a = true ∧ U a
  flight : ∀ {n m a}, ⟨n, m, .info a⟩ ∈ s.flight → U a

theorem Sane.send {packets : List (Packet N K A)} (h : Sane P U s)
    (hp : ∀ {n m a}, ⟨n, m, .info a⟩ ∈ packets → U a) : Sane P U (s.send packets) := by
  refine ⟨h.held, fun hmem ↦ ?_⟩
  rcases List.mem_append.mp hmem with hold | hnew
  · exact h.flight hold
  · exact hp hnew

theorem Sane.sub (h : Sane P U s) {flight : List (Packet N K A)} (hsub : flight ⊆ s.flight) :
    Sane P U { s with flight := flight } := ⟨h.held, fun hmem ↦ h.flight (hsub hmem)⟩

theorem not_info_of_announce {m x : N} : ⟨m, x, .info a⟩ ∉ P.announce n k := by
  simp [Network.announce]

theorem sane_empty : Sane P U State.empty := ⟨by simp [State.empty], by simp [State.empty]⟩

def Submits (U : A → Prop) (_ : State N K A) (event : Event N K A) : Prop :=
  ∀ a ∈ event.submitted, U a

end Integrity

section Agreement

def Reaches (P : Network N K A) (s : State N K A) (n m : N) (k : K) : Prop :=
  (s.held m k).isSome ∨ ⟨n, m, .inv k⟩ ∈ s.flight ∨ ⟨m, n, .get k⟩ ∈ s.flight ∨
    ∃ b, ⟨n, m, .info b⟩ ∈ s.flight ∧ P.key b = k ∧ P.accepts m b = true

def Covered (P : Network N K A) (s : State N K A) : Prop :=
  ∀ n m k a, m ∈ P.links n → s.held n k = some a → P.accepts m a = true → Reaches P s n m k

theorem Reaches.mono {m : N} (h : Reaches P s n m k) (hheld : (s.held m k).isSome → (s'.held m k).isSome)
    (hflight : s.flight ⊆ s'.flight) : Reaches P s' n m k := by
  rcases h with h | h | h | ⟨b, h, hb⟩
  · exact .inl (hheld h)
  · exact .inr (.inl (hflight h))
  · exact .inr (.inr (.inl (hflight h)))
  · exact .inr (.inr (.inr ⟨b, hflight h, hb⟩))

theorem covered_empty : Covered P State.empty := by
  intro n m k a _ h
  cases h

theorem Covered.agree (h : Covered P s) (hquiet : s.flight = []) {m : N} (hm : m ∈ P.links n)
    (hk : s.held n k = some a) (ha : P.accepts m a = true) : (s.held m k).isSome := by
  simpa [Reaches, hquiet] using h n m k a hm hk ha

theorem Covered.agree_connected (h : Covered P s) (hs : Sane P U s) (hquiet : s.flight = [])
    (hall : ∀ n m a, P.accepts n a = true → P.accepts m a = true) {m : N}
    (hm : Relation.ReflTransGen (fun n m ↦ m ∈ P.links n) n m) (hk : (s.held n k).isSome) :
    (s.held m k).isSome := by
  induction hm with
  | refl => exact hk
  | @tail m x _ hx ih =>
    obtain ⟨b, hb⟩ := Option.isSome_iff_exists.mp ih
    exact h.agree hquiet hx hb (hall m x b (hs.held hb).2.1)

end Agreement

section Selection

variable {P Q : Type} {f : P → Option Q} {packets : List P} {i : ℕ} {p : P}

def place (f : P → Option Q) (packets : List P) (i : ℕ) : ℕ := ((packets.take i).filterMap f).length

theorem filterMap_split (h : packets[i]? = some p) :
    packets.filterMap f =
      (packets.take i).filterMap f ++ ((f p).toList ++ (packets.drop (i + 1)).filterMap f) := by
  obtain ⟨hi, rfl⟩ := List.getElem?_eq_some_iff.mp h
  conv_lhs => rw [← List.take_append_drop i packets, List.filterMap_append,
    List.drop_eq_getElem_cons hi, List.filterMap_cons]
  cases f packets[i] <;> rfl

theorem filterMap_erase (packets : List P) (i : ℕ) :
    (packets.eraseIdx i).filterMap f =
      (packets.take i).filterMap f ++ (packets.drop (i + 1)).filterMap f := by
  rw [List.eraseIdx_eq_take_drop_succ, List.filterMap_append]

theorem filterMap_erase_none (h : packets[i]? = some p) (hp : f p = none) :
    (packets.eraseIdx i).filterMap f = packets.filterMap f := by
  rw [filterMap_erase, filterMap_split h, hp]
  rfl

theorem getElem?_place {q : Q} (h : packets[i]? = some p) (hp : f p = some q) :
    (packets.filterMap f)[place f packets i]? = some q := by
  rw [filterMap_split h, place, List.getElem?_append_right (Nat.le_refl _), hp]
  simp

theorem filterMap_erase_some {q : Q} (h : packets[i]? = some p) (hp : f p = some q) :
    (packets.eraseIdx i).filterMap f = (packets.filterMap f).eraseIdx (place f packets i) := by
  rw [filterMap_erase, filterMap_split h, place, List.eraseIdx_append_of_length_le (Nat.le_refl _), hp]
  simp

end Selection

section Size

variable [Fintype N]

def Network.size (P : Network N K A) : ℕ := ∑ n, (P.links n).length

theorem Network.length_links_le (P : Network N K A) (n : N) : (P.links n).length ≤ P.size :=
  Finset.single_le_sum_of_canonicallyOrdered (f := fun n ↦ (P.links n).length) (Finset.mem_univ n)

end Size

section Weights

/-- How many packets may still come of one, before any item is new to a node. -/
def Message.weight : Message K A → ℕ
  | .inv _ => 3
  | .get _ => 2
  | .info _ => 1

def weights (packets : List (Packet N K A)) : ℕ := (packets.map fun p ↦ p.message.weight).sum

theorem weights_send (packets : List (Packet N K A)) (s : State N K A) :
    weights (s.send packets).flight = weights s.flight + weights packets := by
  simp [weights, State.send]

theorem weights_map (message : Message K A) (links : List N) :
    weights (links.map fun m ↦ ⟨n, m, message⟩) = message.weight * links.length := by
  simp [weights, Function.comp_def, mul_comm]

theorem weights_requests (keys : List K) (links : List N) :
    weights (A := A) (keys.flatMap fun k ↦ links.map fun m ↦ ⟨n, m, .get k⟩) =
      keys.length * (2 * links.length) := by
  induction keys with
  | nil => simp [weights]
  | cons k keys ih =>
    have hhead := weights_map (n := n) (Message.get (A := A) k) links
    rw [weights] at ih hhead ⊢
    rw [List.flatMap_cons, List.map_append, List.sum_append, ih, hhead, List.length_cons, Nat.add_mul,
      Nat.one_mul]
    exact Nat.add_comm _ _

theorem weights_singleton (p : Packet N K A) : weights [p] = p.message.weight := List.sum_singleton

theorem weights_perm {packets : List (Packet N K A)} {p : Packet N K A}
    {rest : List (Packet N K A)} (h : packets.Perm (p :: rest)) :
    weights packets = p.message.weight + weights rest := by
  rw [weights, (h.map _).sum_eq]
  rfl

end Weights

variable [DecidableEq N]

theorem Sane.shrink (h : Sane P U s) (keep : K → Bool) : Sane P U (s.shrink n keep) := by
  refine ⟨fun {m k b} hb ↦ ?_, h.flight⟩
  rw [State.shrink_held] at hb
  split_ifs at hb
  exact h.held hb

variable [DecidableEq K]

section Steps

variable {event : Event N K A}

theorem step_deliver {i : ℕ} (h : P.step s (.deliver i) = some s') :
    ∃ p rest, s.flight.Perm (p :: rest) ∧ s' = P.react p { s with flight := rest } := by
  obtain ⟨p, hp, he⟩ := Option.map_eq_some_iff.mp h
  obtain ⟨hi, rfl⟩ := List.getElem?_eq_some_iff.mp hp
  exact ⟨_, _, (List.getElem_cons_eraseIdx_perm hi).symm, he.symm⟩

theorem store_keeps {n m : N} {k : K} {a b : A} (ht : P.takes s n a = true)
    (h : s.held m k = some b) : (s.store n (P.key a) a).held m k = some b := by
  rw [State.store_held, if_neg]
  · exact h
  · rintro ⟨rfl, rfl⟩
    rw [(Network.takes_iff.mp ht).1] at h
    cases h

theorem react_keeps {p : Packet N K A} {m : N} {k : K} {b : A} (h : s.held m k = some b) :
    (P.react p s).held m k = some b := by
  rw [Network.react.eq_def]
  split
  · split_ifs <;> exact h
  · split <;> exact h
  · split_ifs with ht
    · exact store_keeps ht h
    · exact h

end Steps

section Integrity

theorem Sane.store (h : Sane P U s) (ht : P.takes s n a = true) (ha : U a) :
    Sane P U (s.store n (P.key a) a) := by
  refine ⟨fun {m k b} hb ↦ ?_, h.flight⟩
  rw [State.store_held] at hb
  split_ifs at hb with he
  · obtain ⟨rfl, rfl⟩ := he
    cases hb
    exact ⟨rfl, (Network.takes_iff.mp ht).2, ha⟩
  · exact h.held hb

theorem Sane.react {p : Packet N K A} {rest : List (Packet N K A)} (h : Sane P U s)
    (hperm : s.flight.Perm (p :: rest)) : Sane P U (P.react p { s with flight := rest }) := by
  have hrest : Sane P U { s with flight := rest } :=
    h.sub fun _ hmem ↦ hperm.mem_iff.mpr (List.mem_cons_of_mem p hmem)
  obtain ⟨n, m, message⟩ := p
  cases message with
  | inv k =>
    simp only [Network.react]
    split_ifs
    · exact hrest
    · exact hrest.send (by simp)
  | get k =>
    simp only [Network.react]
    split
    · exact hrest
    · rename_i a ha
      refine hrest.send fun hmem ↦ ?_
      simp only [List.mem_singleton, Packet.mk.injEq, Message.info.injEq] at hmem
      obtain ⟨-, -, rfl⟩ := hmem
      exact (h.held ha).2.2
  | info a =>
    simp only [Network.react]
    split_ifs with ht
    · have ha := h.flight (hperm.mem_iff.mpr List.mem_cons_self)
      exact (hrest.store ht ha).send fun hmem ↦ absurd hmem not_info_of_announce
    · exact hrest

theorem Sane.step {event : Event N K A} (h : Sane P U s) (hU : Submits U s event)
    (hs : P.step s event = some s') : Sane P U s' := by
  cases event with
  | submit n a =>
    cases hs
    rw [Network.submit]
    refine Sane.send ?_ fun hmem ↦ absurd hmem not_info_of_announce
    split_ifs with ht
    · exact h.store ht (hU a rfl)
    · exact h
  | request n ks =>
    cases hs
    exact h.send (by simp)
  | packet p =>
    cases hs
    refine h.send fun {m x a} hmem ↦ hU a ?_
    rw [← List.mem_singleton.mp hmem]
    rfl
  | shrink n keep =>
    cases hs
    exact h.shrink keep
  | deliver i =>
    obtain ⟨p, rest, hperm, rfl⟩ := step_deliver hs
    exact h.react hperm

theorem sane_of_run (h : Run P.step (Submits U) .empty s) : Sane P U s :=
  h.invariant sane_empty fun _ _ _ ht hC hs ↦ ht.step hC hs

end Integrity

section Coverage

variable {event : Event N K A} {p : Packet N K A} {rest : List (Packet N K A)}

theorem store_announced {m : N} {x : K} {b : A}
    (h : ((s.store n k a).send (P.announce n k)).held m x = some b) :
    s.held m x = some b ∨
      ∀ y ∈ P.links m, ⟨m, y, .inv x⟩ ∈ ((s.store n k a).send (P.announce n k)).flight := by
  rw [State.send_held, State.store_held] at h
  split_ifs at h with he
  · obtain ⟨rfl, rfl⟩ := he
    exact .inr fun y hy ↦ List.mem_append_right _ (List.mem_map.mpr ⟨y, hy, rfl⟩)
  · exact .inl h

theorem submit_held {m : N} {x : K} {b : A} (h : (P.submit n a s).held m x = some b) :
    s.held m x = some b ∨ ∀ y ∈ P.links m, ⟨m, y, .inv x⟩ ∈ (P.submit n a s).flight := by
  rw [Network.submit] at h ⊢
  split_ifs at h ⊢
  · exact store_announced h
  · exact .inl h

theorem react_held {m : N} {x : K} {b : A} (h : (P.react p s).held m x = some b) :
    s.held m x = some b ∨ ∀ y ∈ P.links m, ⟨m, y, .inv x⟩ ∈ (P.react p s).flight := by
  obtain ⟨c, d, message⟩ := p
  cases message with
  | inv k =>
    simp only [Network.react] at h
    split_ifs at h <;> exact .inl h
  | get k =>
    simp only [Network.react] at h
    split at h <;> exact .inl h
  | info a =>
    simp only [Network.react] at h ⊢
    split_ifs at h ⊢
    · exact store_announced h
    · exact .inl h

theorem subset_react : s.flight ⊆ (P.react p s).flight := by
  obtain ⟨c, d, message⟩ := p
  cases message with
  | inv k | info a =>
    simp only [Network.react]
    split_ifs
    · first | exact List.Subset.refl _ | exact State.subset_send _ _
    · first | exact List.Subset.refl _ | exact State.subset_send _ _
  | get k =>
    simp only [Network.react]
    split
    · exact List.Subset.refl _
    · exact State.subset_send _ _

theorem isSome_react {m : N} {x : K} (h : (s.held m x).isSome) :
    ((P.react p s).held m x).isSome := by
  obtain ⟨b, hb⟩ := Option.isSome_iff_exists.mp h
  rw [react_keeps hb]
  rfl

theorem Reaches.react {m : N} (h : Reaches P s n m k) (hperm : s.flight.Perm (p :: rest))
    (hk : s.held n k = some a) (hkey : P.key a = k) (ha : P.accepts m a = true) :
    Reaches P (P.react p { s with flight := rest }) n m k := by
  have hmem : ∀ {q}, q ∈ s.flight → q = p ∨ q ∈ (P.react p { s with flight := rest }).flight := by
    intro q hq
    rcases List.mem_cons.mp (hperm.mem_iff.mp hq) with hq | hq
    · exact .inl hq
    · exact .inr (subset_react hq)
  rcases h with h | h | h | ⟨b, h, hb⟩
  · exact .inl (isSome_react (s := { s with flight := rest }) h)
  · rcases hmem h with rfl | h
    · cases hm : (s.held m k).isSome with
      | true => exact .inl (isSome_react (s := { s with flight := rest }) hm)
      | false => exact .inr (.inr (.inl (by simp [Network.react, hm, State.send])))
    · exact .inr (.inl h)
  · rcases hmem h with rfl | h
    · exact .inr (.inr (.inr ⟨a, by simp [Network.react, hk, State.send], hkey, ha⟩))
    · exact .inr (.inr (.inl h))
  · rcases hmem h with rfl | h
    · obtain ⟨rfl, hb⟩ := hb
      refine .inl ?_
      cases hm : s.held m (P.key b) with
      | some x => exact isSome_react (s := { s with flight := rest }) (by rw [hm]; rfl)
      | none => simp [Network.react, Network.takes, hm, hb, State.store_held]
    · exact .inr (.inr (.inr ⟨b, h, hb⟩))

theorem Covered.step (h : Covered P s) (hs : Sane P U s) (hkeep : event.isShrink = false)
    (hstep : P.step s event = some s') : Covered P s' := by
  intro n m k b hm hk hb
  cases event with
  | shrink c keep => cases hkeep
  | submit c a =>
    cases hstep
    rcases submit_held hk with hold | hinv
    · refine (h n m k b hm hold hb).mono ?_ ?_
      · rw [Network.submit]
        split_ifs with ht
        · intro hx
          obtain ⟨x, hx⟩ := Option.isSome_iff_exists.mp hx
          rw [State.send_held, store_keeps ht hx]
          rfl
        · exact id
      · rw [Network.submit]
        split_ifs <;> exact State.subset_send _ _
    · exact .inr (.inl (hinv m hm))
  | request c ks | packet p =>
    cases hstep
    exact (h n m k b hm hk hb).mono id (State.subset_send _ _)
  | deliver i =>
    obtain ⟨p, rest, hperm, rfl⟩ := step_deliver hstep
    rcases react_held hk with hold | hinv
    · exact (h n m k b hm hold hb).react hperm hold (hs.held hold).1 hb
    · exact .inr (.inl (hinv m hm))

/-- In every state that flooding reaches without losses, every item is on its way
to the links that do not have it yet. -/
theorem covered_of_run
    (h : Run P.step (fun s event ↦ Submits U s event ∧ event.isShrink = false) .empty s) :
    Sane P U s ∧ Covered P s :=
  h.invariant (I := fun s ↦ Sane P U s ∧ Covered P s) ⟨sane_empty, covered_empty⟩
    fun _ _ _ ht hC hs ↦ ⟨ht.1.step hC.1 hs, ht.2.step ht.1 hC.2 hs⟩

end Coverage

section Bound

variable [Fintype N] {keys : Finset K} {event : Event N K A}

/-- What the announcements of the given keys can still weigh, by the nodes that
do not hold them. -/
def debt (P : Network N K A) (keys : Finset K) (s : State N K A) : ℕ :=
  ∑ k ∈ keys, ∑ n, if (s.held n k).isSome then 0 else 3 * (P.links n).length

def Network.cost (P : Network N K A) : Event N K A → ℕ
  | .submit n _ => 3 * (P.links n).length
  | .request n ks => ks.length * (2 * (P.links n).length)
  | .packet p => p.message.weight
  | .shrink _ _ | .deliver _ => 0

theorem debt_store (hk : k ∈ keys) (hnone : s.held n k = none) :
    debt P keys (s.store n k a) + 3 * (P.links n).length = debt P keys s := by
  have hother {m : N} {x : K} (h : ¬(m = n ∧ x = k)) : (s.store n k a).held m x = s.held m x := by
    rw [State.store_held, if_neg h]
  rw [debt, debt, ← Finset.sum_erase_add _ _ hk, ← Finset.sum_erase_add _ _ hk, add_assoc]
  congr 1
  · refine Finset.sum_congr rfl fun x hx ↦ Finset.sum_congr rfl fun m _ ↦ ?_
    rw [hother fun h ↦ Finset.ne_of_mem_erase hx h.2]
  · rw [← Finset.sum_erase_add _ _ (Finset.mem_univ n),
      ← Finset.sum_erase_add _ _ (Finset.mem_univ n), add_assoc]
    congr 1
    · refine Finset.sum_congr rfl fun m hm ↦ ?_
      rw [hother fun h ↦ Finset.ne_of_mem_erase hm h.1]
    · simp [State.store_held, hnone]

theorem store_announce_bound (ht : P.takes s n a = true) (hk : P.key a ∈ keys) :
    weights ((s.store n (P.key a) a).send (P.announce n (P.key a))).flight +
        debt P keys ((s.store n (P.key a) a).send (P.announce n (P.key a))) =
      weights s.flight + debt P keys s := by
  have hdebt := @debt_store N K A P s n (P.key a) a _ _ _ keys hk (Network.takes_iff.mp ht).1
  rw [weights_send, Network.announce, weights_map, Message.weight]
  change weights s.flight + _ + debt P keys (s.store n (P.key a) a) = _
  omega

theorem react_bound {p : Packet N K A}
    (hkeys : ∀ {n m a}, p = ⟨n, m, .info a⟩ → P.key a ∈ keys) :
    weights (P.react p s).flight + debt P keys (P.react p s) + 1 ≤
      p.message.weight + weights s.flight + debt P keys s := by
  obtain ⟨c, d, message⟩ := p
  cases message with
  | inv k =>
    simp only [Network.react]
    split_ifs
    · simp only [Message.weight]
      omega
    · rw [weights_send, weights_singleton]
      change weights s.flight + 2 + debt P keys s + 1 ≤ 3 + _ + _
      omega
  | get k =>
    simp only [Network.react]
    split
    · simp only [Message.weight]
      omega
    · rw [weights_send, weights_singleton]
      change weights s.flight + 1 + debt P keys s + 1 ≤ 2 + _ + _
      omega
  | info a =>
    simp only [Network.react]
    split_ifs with ht
    · rw [store_announce_bound ht (hkeys rfl)]
      simp only [Message.weight]
      omega
    · simp only [Message.weight]
      omega

theorem step_bound (hs : Sane P (fun a ↦ P.key a ∈ keys) s)
    (hU : Submits (fun a ↦ P.key a ∈ keys) s event) (hkeep : event.isShrink = false)
    (h : P.step s event = some s') :
    weights s'.flight + debt P keys s' + (if event.isDelivery then 1 else 0) ≤
      weights s.flight + debt P keys s + P.cost event := by
  cases event with
  | shrink n keep => cases hkeep
  | submit n a =>
    cases h
    rw [Network.submit]
    change _ + 0 ≤ _ + 3 * (P.links n).length
    split_ifs with ht
    · rw [store_announce_bound ht (hU a rfl)]
      omega
    · rw [weights_send, Network.announce, weights_map]
      change weights s.flight + 3 * _ + debt P keys s + 0 ≤ _
      omega
  | request n ks =>
    cases h
    rw [weights_send, weights_requests]
    change weights s.flight + ks.length * _ + debt P keys s + 0 ≤
      _ + ks.length * (2 * (P.links n).length)
    omega
  | packet p =>
    cases h
    rw [weights_send, weights_singleton]
    change weights s.flight + _ + debt P keys s + 0 ≤ _ + p.message.weight
    omega
  | deliver i =>
    obtain ⟨p, rest, hperm, rfl⟩ := step_deliver h
    have hkeys : ∀ {n m a}, p = ⟨n, m, .info a⟩ → P.key a ∈ keys := fun he ↦
      hs.flight (hperm.mem_iff.mpr (List.mem_cons.mpr (.inl he.symm)))
    have hp := @react_bound N K A P { s with flight := rest } _ _ _ keys p hkeys
    rw [weights_perm hperm]
    exact hp

theorem run_bound {events : List (Event N K A)} (hs : Sane P (fun a ↦ P.key a ∈ keys) s)
    (hkeys : ∀ a ∈ events.filterMap Event.submitted, P.key a ∈ keys)
    (hkeep : ∀ event ∈ events, event.isShrink = false) (h : events.foldlM P.step s = some s') :
    weights s'.flight + debt P keys s' + events.countP Event.isDelivery ≤
      weights s.flight + debt P keys s + (events.map P.cost).sum := by
  induction events generalizing s with
  | nil =>
    cases h
    simp
  | cons event events ih =>
    rw [List.foldlM_cons, Option.bind_eq_bind, Option.bind_eq_some_iff] at h
    obtain ⟨u, hu, hrest⟩ := h
    have hU : Submits (fun a ↦ P.key a ∈ keys) s event := fun a ha ↦
      hkeys a (List.mem_filterMap.mpr ⟨event, List.mem_cons_self, ha⟩)
    have hrestkeys : ∀ a ∈ events.filterMap Event.submitted, P.key a ∈ keys := by
      intro a ha
      obtain ⟨later, hlater, ha⟩ := List.mem_filterMap.mp ha
      exact hkeys a (List.mem_filterMap.mpr ⟨later, List.mem_cons_of_mem _ hlater, ha⟩)
    have hstep := step_bound hs hU (hkeep event List.mem_cons_self) hu
    have hlater := ih (hs.step hU hu) hrestkeys (fun later hmem ↦ hkeep later (by simp [hmem])) hrest
    rw [List.countP_cons, List.map_cons, List.sum_cons]
    omega

/-- Flooding comes to an end: what comes from outside bounds how many packets
ever arrive. -/
theorem deliveries_le {events : List (Event N K A)}
    (hkeep : ∀ event ∈ events, event.isShrink = false)
    (h : events.foldlM P.step .empty = some s) :
    events.countP Event.isDelivery ≤
      (events.filterMap Event.submitted).length * (3 * P.size) + (events.map P.cost).sum := by
  set keys := ((events.filterMap Event.submitted).map P.key).toFinset with hdef
  have hkeys : ∀ a ∈ events.filterMap Event.submitted, P.key a ∈ keys := fun a ha ↦ by
    rw [hdef, List.mem_toFinset]
    exact List.mem_map_of_mem ha
  have hbound := run_bound sane_empty hkeys hkeep h
  have hempty : debt P keys State.empty = keys.card * (3 * P.size) := by
    simp [debt, State.empty, Network.size, Finset.mul_sum]
  rw [hempty] at hbound
  have hcard : keys.card ≤ (events.filterMap Event.submitted).length :=
    (List.toFinset_card_le _).trans (List.length_map P.key).le
  have hmul := Nat.mul_le_mul_right (3 * P.size) hcard
  simp only [State.empty, weights, List.map_nil, List.sum_nil] at hbound
  omega

end Bound

end FheBlockchain.Library.Flooding
