import Mathlib.Tactic.SplitIfs

namespace FheBlockchain.Library.Transitions

variable {S E : Type} {step : S → E → Option S} {C C' : S → E → Prop} {s t u : S}

/-- The states that a system reaches from `s` by events that it can take, each of
which meets `C` in the state it finds. -/
inductive Run (step : S → E → Option S) (C : S → E → Prop) (s : S) : S → Prop
  | start : Run step C s s
  | next {t u : S} {event : E} :
      Run step C s t → C t event → step t event = some u → Run step C s u

theorem Run.invariant {I : S → Prop} (h : Run step C s t) (hs : I s)
    (hstep : ∀ t event u, I t → C t event → step t event = some u → I u) : I t := by
  induction h with
  | start => exact hs
  | next _ hC hnext ih => exact hstep _ _ _ ih hC hnext

theorem Run.mono (h : Run step C s t) (hC : ∀ s event, C s event → C' s event) :
    Run step C' s t := by
  induction h with
  | start => exact .start
  | next _ hc hnext ih => exact .next ih (hC _ _ hc) hnext

theorem Run.trans (h : Run step C s t) (h' : Run step C t u) : Run step C s u := by
  induction h' with
  | start => exact h
  | next _ hC hnext ih => exact .next ih hC hnext

theorem Run.follow {T : Type} {step' : T → E → Option T} {R : S → T → Prop} {v : T}
    (h : Run step C s t) (hs : R s v)
    (hstep : ∀ s v event s', R s v → step s event = some s' →
      ∃ v', step' v event = some v' ∧ R s' v') :
    ∃ v', Run step' (fun _ _ ↦ True) v v' ∧ R t v' := by
  induction h with
  | start => exact ⟨v, .start, hs⟩
  | next _ _ hnext ih =>
    obtain ⟨u, hrun, hu⟩ := ih
    obtain ⟨u', hu', hR⟩ := hstep _ _ _ _ hu hnext
    exact ⟨u', hrun.next trivial hu', hR⟩

/-- A run seen through a map of its states: each step is one step of the other
system or leaves the image as it is. -/
theorem Run.project {T F : Type} {step' : T → F → Option T} {D : T → F → Prop} {view : S → T}
    (h : Run step C s t)
    (hstep : ∀ t event u, Run step C s t → Run step' D (view s) (view t) → C t event →
      step t event = some u →
      view u = view t ∨ ∃ event', D (view t) event' ∧ step' (view t) event' = some (view u)) :
    Run step' D (view s) (view t) := by
  induction h with
  | start => exact .start
  | next hrun hC hnext ih =>
    rcases hstep _ _ _ hrun ih hC hnext with heq | ⟨event', hD, hnext'⟩
    · rwa [heq]
    · exact ih.next hD hnext'

section Check

variable (step C) [∀ s event, Decidable (C s event)]

def takeAll : List E → S → Option S
  | [], s => some s
  | event :: events, s => if C s event then (step s event).bind (takeAll events) else none

variable {step C}

theorem run_of_takeAll {events : List E} (h : takeAll step C events s = some t) :
    Run step C s t := by
  induction events generalizing s with
  | nil =>
    cases h
    exact .start
  | cons event events ih =>
    rw [takeAll] at h
    split_ifs at h with hC
    obtain ⟨u, hu, hrest⟩ := Option.bind_eq_some_iff.mp h
    exact (Run.next .start hC hu).trans (ih hrest)

theorem run_of_takeAll_forall {events : List E} (h : takeAll step C events s = some t)
    (hall : ∀ event ∈ events, ∀ s, C' s event) :
    Run step (fun s event ↦ C' s event ∧ C s event) s t := by
  induction events generalizing s with
  | nil =>
    cases h
    exact .start
  | cons event events ih =>
    rw [takeAll] at h
    split_ifs at h with hC
    obtain ⟨u, hu, hrest⟩ := Option.bind_eq_some_iff.mp h
    refine (Run.next .start ⟨hall event List.mem_cons_self s, hC⟩ hu).trans (ih hrest ?_)
    exact fun later hlater ↦ hall later (List.mem_cons_of_mem _ hlater)

theorem reached_of_takeAll (events : List E) (P : S → Prop) [DecidablePred P]
    (h : (takeAll step C events s).any (P ·)) : ∃ t, Run step C s t ∧ P t := by
  cases ht : takeAll step C events s with
  | none => simp [ht] at h
  | some t => exact ⟨t, run_of_takeAll ht, by simpa [ht] using h⟩

end Check

end FheBlockchain.Library.Transitions
