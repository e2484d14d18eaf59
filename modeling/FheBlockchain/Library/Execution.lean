import Mathlib.Logic.Basic
import Mathlib.Tactic.Cases

namespace FheBlockchain.Library.Execution

/-- How a stateful function fails: with an exception its caller may handle, or
by running into undefined behaviour or a false assertion. -/
inductive Fault (ε υ : Type)
  | throw (e : ε)
  | abort (u : υ)
deriving DecidableEq, Repr

variable {ε υ σ τ α β : Type}

abbrev Exec (ε υ σ : Type) := EStateM (Fault ε υ) σ

def Exec.focus (get : σ → τ) (set : σ → τ → σ) (x : Exec ε υ τ α) : Exec ε υ σ α := fun s ↦
  match x (get s) with
  | .ok a t => .ok a (set s t)
  | .error e t => .error e (set s t)

def Exec.ofExcept : Except (Fault ε υ) α → Exec ε υ σ α
  | .ok a => pure a
  | .error e => throw e

/-- Every outcome of `x` from `s` short of an abort: a return meets `Q`, an
exception meets `E`. -/
def Post (x : Exec ε υ σ α) (s : σ) (Q : α → σ → Prop) (E : ε → σ → Prop) : Prop :=
  match x s with
  | .ok a t => Q a t
  | .error (.throw e) t => E e t
  | .error (.abort _) _ => True

variable {x : Exec ε υ σ α} {f : α → Exec ε υ σ β} {s : σ}

theorem Post.mono {Q Q' : α → σ → Prop} {E E' : ε → σ → Prop} (h : Post x s Q E)
    (hQ : ∀ a t, Q a t → Q' a t) (hE : ∀ e t, E e t → E' e t) : Post x s Q' E' := by
  unfold Post at h ⊢
  split at h
  · exact hQ _ _ h
  · exact hE _ _ h
  · trivial

theorem Post.and {Q Q' : α → σ → Prop} {E E' : ε → σ → Prop} (h : Post x s Q E)
    (h' : Post x s Q' E') :
    Post x s (fun a t ↦ Q a t ∧ Q' a t) (fun e t ↦ E e t ∧ E' e t) := by
  unfold Post at h h' ⊢
  split <;> simp_all

theorem Post.run {Q : α → σ → Prop} {E : ε → σ → Prop} (h : Post x s Q E) :
    Post x s (fun a t ↦ Q a t ∧ x s = .ok a t) E := by
  unfold Post at h ⊢
  split at h
  next a t hx => exact ⟨h, hx⟩
  · exact h
  · trivial

theorem post_pure {a : α} {Q : α → σ → Prop} {E : ε → σ → Prop} :
    Post (pure a : Exec ε υ σ α) s Q E ↔ Q a s := Iff.rfl

theorem post_bind {Q : β → σ → Prop} {E : ε → σ → Prop} :
    Post (x >>= f) s Q E ↔ Post x s (fun a t ↦ Post (f a) t Q E) E := by
  simp only [Post, bind, EStateM.bind]
  cases hx : x s with
  | ok a t => rfl
  | error e t => cases e <;> rfl

section Post

variable {Q : α → σ → Prop} {Q' : β → σ → Prop} {E : ε → σ → Prop}

theorem Post.bind {R : α → σ → Prop} (h : Post x s R E)
    (hf : ∀ a t, R a t → Post (f a) t Q' E) : Post (x >>= f) s Q' E :=
  post_bind.mpr (h.mono hf fun _ _ he ↦ he)

theorem post_bind_get {f : σ → Exec ε υ σ β} :
    Post ((get : Exec ε υ σ σ) >>= f) s Q' E ↔ Post (f s) s Q' E := Iff.rfl

theorem post_modify {g : σ → σ} {Q : PUnit → σ → Prop} :
    Post (modify g : Exec ε υ σ PUnit) s Q E ↔ Q ⟨⟩ (g s) := Iff.rfl

theorem post_bind_modify {g : σ → σ} {f : PUnit → Exec ε υ σ β} :
    Post ((modify g : Exec ε υ σ PUnit) >>= f) s Q' E ↔ Post (f ⟨⟩) (g s) Q' E := Iff.rfl

theorem post_bind_ofExcept_ok {a : α} :
    Post (Exec.ofExcept (.ok a) >>= f) s Q' E ↔ Post (f a) s Q' E := Iff.rfl

theorem post_bind_ofExcept {r : Except (Fault ε υ) α} (hok : ∀ a, r = .ok a → Post (f a) s Q' E)
    (hthrow : ∀ e, r = .error (.throw e) → E e s) : Post (Exec.ofExcept r >>= f) s Q' E := by
  cases r with
  | ok a => exact hok a rfl
  | error e =>
    cases e with
    | throw e => exact hthrow e rfl
    | abort u => trivial

theorem post_focus {τ : Type} {get : σ → τ} {set : σ → τ → σ} {y : Exec ε υ τ α}
    (h : Post y (get s) (fun a t ↦ Q a (set s t)) fun e t ↦ E e (set s t)) :
    Post (Exec.focus get set y) s Q E := by
  simp only [Post, Exec.focus] at h ⊢
  cases hy : y (get s) with
  | ok a t => simpa [hy] using h
  | error e t => cases e <;> simp_all

theorem post_true {τ : Type} (y : Exec ε υ τ α) (t : τ) :
    Post y t (fun _ _ ↦ True) fun _ _ ↦ True := by
  rw [Post]
  split <;> trivial

end Post

def Ends (x : Exec ε υ σ α) (s t : σ) : Prop :=
  (∃ a, x s = .ok a t) ∨ ∃ e, x s = .error (.throw e) t

theorem Ends.of_post {t : σ} {Q : σ → Prop} (h : Ends x s t)
    (hpost : Post x s (fun _ ↦ Q) fun _ ↦ Q) : Q t := by
  rw [Post] at hpost
  rcases h with ⟨a, ha⟩ | ⟨e, he⟩
  · rwa [ha] at hpost
  · rwa [he] at hpost

theorem run_bind_ok {b : β} {t : σ} :
    (x >>= f) s = .ok b t ↔ ∃ a u, x s = .ok a u ∧ f a u = .ok b t := by
  simp only [bind, EStateM.bind]
  cases hx : x s with
  | ok a u =>
    refine ⟨fun h ↦ ⟨a, u, rfl, h⟩, ?_⟩
    rintro ⟨a', u', he, h⟩
    cases he
    exact h
  | error e u => simp

theorem run_bind_of_ok {a : α} {t : σ} (h : x s = .ok a t) : (x >>= f) s = f a t := by
  simp only [bind, EStateM.bind, h]

theorem run_bind_of_error {e : Fault ε υ} {t : σ} (h : x s = .error e t) :
    (x >>= f) s = .error e t := by
  simp only [bind, EStateM.bind, h]

section Steps

@[simp]
theorem run_pure {a : α} : (pure a : Exec ε υ σ α) s = .ok a s := rfl

@[simp]
theorem run_throw {e : Fault ε υ} : (throw e : Exec ε υ σ α) s = .error e s := rfl

@[simp]
theorem run_bind_pure {a : α} : ((pure a : Exec ε υ σ α) >>= f) s = f a s := rfl

@[simp]
theorem run_bind_throw {e : Fault ε υ} : ((throw e : Exec ε υ σ α) >>= f) s = .error e s := rfl

@[simp]
theorem run_bind_get {f : σ → Exec ε υ σ β} : ((get : Exec ε υ σ σ) >>= f) s = f s s := rfl

@[simp]
theorem run_bind_modify {g : σ → σ} {f : PUnit → Exec ε υ σ β} :
    ((modify g : Exec ε υ σ PUnit) >>= f) s = f ⟨⟩ (g s) := rfl

@[simp]
theorem run_bind_set {t : σ} {f : PUnit → Exec ε υ σ β} :
    ((set t : Exec ε υ σ PUnit) >>= f) s = f ⟨⟩ t := rfl

@[simp]
theorem run_modify {g : σ → σ} : (modify g : Exec ε υ σ PUnit) s = .ok ⟨⟩ (g s) := rfl

@[simp]
theorem run_bind_ofExcept_ok {a : α} : (Exec.ofExcept (.ok a) >>= f) s = f a s := rfl

@[simp]
theorem run_bind_ofExcept_error {e : Fault ε υ} :
    (Exec.ofExcept (.error e) >>= f) s = .error e s := rfl

variable {get : σ → τ} {set : σ → τ → σ} {y : Exec ε υ τ α} {t : τ}

theorem focus_of_ok {a : α} (h : y (get s) = .ok a t) : Exec.focus get set y s = .ok a (set s t) := by
  rw [Exec.focus, h]

theorem focus_of_error {e : Fault ε υ} (h : y (get s) = .error e t) :
    Exec.focus get set y s = .error e (set s t) := by
  rw [Exec.focus, h]

end Steps

def returns (x : Exec ε υ σ α) (s : σ) (test : α → σ → Bool) : Bool :=
  match x s with
  | .ok a t => test a t
  | .error _ _ => false

theorem returns_iff {test : α → σ → Bool} :
    returns x s test = true ↔ ∃ a t, x s = .ok a t ∧ test a t = true := by
  rw [returns]
  cases x s with
  | ok a t =>
    constructor
    · intro h
      exact ⟨a, t, rfl, h⟩
    · rintro ⟨_, _, ⟨⟩, h⟩
      exact h
  | error e t => simp

def fails [DecidableEq ε] [DecidableEq υ] (x : Exec ε υ σ α) (s : σ) (e : Fault ε υ) : Bool :=
  match x s with
  | .error e' _ => decide (e' = e)
  | .ok _ _ => false

theorem fails_iff [DecidableEq ε] [DecidableEq υ] {e : Fault ε υ} :
    fails x s e = true ↔ ∃ t, x s = .error e t := by
  rw [fails]
  cases x s with
  | ok a t => simp
  | error e' t => simp

instance decidableReturns [DecidableEq α] (r : EStateM.Result (Fault ε υ) σ α) (a : α)
    (P : σ → Prop) [DecidablePred P] : Decidable (∀ t, r = .ok a t → P t) :=
  match r with
  | .ok b t => if h : b = a then decidable_of_iff (P t) (by simp [h]) else .isTrue (by simp [h])
  | .error _ _ => .isTrue (by simp)

section Alike

/-- Two computations that return the same or fail alike, in related states. -/
inductive Alike (R : σ → τ → Prop) :
    EStateM.Result (Fault ε υ) σ α → EStateM.Result (Fault ε υ) τ α → Prop
  | ok (a : α) {s : σ} {t : τ} : R s t → Alike R (.ok a s) (.ok a t)
  | error (e : Fault ε υ) {s : σ} {t : τ} : R s t → Alike R (.error e s) (.error e t)

variable {R : σ → τ → Prop} {y : Exec ε υ τ α} {g : α → Exec ε υ τ β} {t : τ}

theorem Alike.bind (h : Alike R (x s) (y t)) (hf : ∀ a s t, R s t → Alike R (f a s) (g a t)) :
    Alike R ((x >>= f) s) ((y >>= g) t) := by
  simp only [Bind.bind, EStateM.bind]
  generalize x s = r at h ⊢
  generalize y t = r' at h ⊢
  cases h with
  | ok a hR => exact hf a _ _ hR
  | error e hR => exact .error e hR

theorem alike_forM {γ : Type} {f : γ → Exec ε υ σ Unit} {g : γ → Exec ε υ τ Unit} {as : List γ}
    (step : ∀ a s t, R s t → Alike R (f a s) (g a t)) (h : R s t) :
    Alike R (as.forM f s) (as.forM g t) := by
  induction as generalizing s t with
  | nil => exact .ok () h
  | cons a as ih => exact (step a s t h).bind fun _ _ _ h ↦ ih h

end Alike

section Follows

/-- Whatever the first computation returns, the second one returns too, in a
related state. -/
def Follows (R : σ → τ → Prop) (r : EStateM.Result (Fault ε υ) σ α)
    (r' : EStateM.Result (Fault ε υ) τ α) : Prop :=
  ∀ a s, r = .ok a s → ∃ t, r' = .ok a t ∧ R s t

variable {R : σ → τ → Prop} {y : Exec ε υ τ α} {g : α → Exec ε υ τ β} {t : τ}

theorem follows_ok {a : α} (h : R s t) :
    Follows (ε := ε) (υ := υ) R (.ok a s) (.ok a t) := by
  intro b u hu
  cases hu
  exact ⟨t, rfl, h⟩

theorem follows_error {e : Fault ε υ} {r : EStateM.Result (Fault ε υ) τ α} :
    Follows R (.error e s) r := by
  intro b u hu
  cases hu

theorem Follows.bind (h : Follows R (x s) (y t)) (hf : ∀ a s t, R s t → Follows R (f a s) (g a t)) :
    Follows R ((x >>= f) s) ((y >>= g) t) := by
  intro b u hu
  obtain ⟨a, s', hx, hb⟩ := run_bind_ok.mp hu
  obtain ⟨t', hy, hR⟩ := h a s' hx
  rw [run_bind_of_ok hy]
  exact hf a s' t' hR b u hb

theorem follows_ofExcept {r : Except (Fault ε υ) α} (h : R s t) :
    Follows R (Exec.ofExcept r s) (Exec.ofExcept r t) := by
  cases r with
  | ok a => exact follows_ok h
  | error e => exact follows_error

theorem follows_focus {ρ : Type} {get : σ → ρ} {set : σ → ρ → σ} {get' : τ → ρ} {set' : τ → ρ → τ}
    (z : Exec ε υ ρ α) (h : get s = get' t) (hset : ∀ r, R (set s r) (set' t r)) :
    Follows R (Exec.focus get set z s) (Exec.focus get' set' z t) := by
  rw [Exec.focus, Exec.focus, h]
  cases z (get' t) with
  | ok a r => exact follows_ok (hset r)
  | error e r => exact follows_error

end Follows

section Loops

variable {γ : Type} {f : γ → Exec ε υ σ Unit}

theorem forM_cons (a : γ) (as : List γ) : (a :: as).forM f s =
    match f a s with
    | .ok _ t => as.forM f t
    | .error e t => .error e t := by
  change (f a >>= fun _ ↦ as.forM f) s = _
  simp only [bind, EStateM.bind]
  cases f a s <;> rfl

theorem forM_append {as : List γ} (bs : List γ) {t : σ} (h : as.forM f s = .ok () t) :
    (as ++ bs).forM f s = bs.forM f t := by
  induction as generalizing s with
  | nil =>
    cases h
    rfl
  | cons a as ih =>
    rw [forM_cons] at h
    rw [List.cons_append, forM_cons]
    cases hrun : f a s with
    | ok _ u =>
      rw [hrun] at h
      exact ih h
    | error e u => simp [hrun] at h

theorem post_forM {I : σ → Prop} {E : ε → σ → Prop} {as : List γ}
    (step : ∀ a ∈ as, ∀ s, I s → Post (f a) s (fun _ ↦ I) E) {s : σ} (hs : I s) :
    Post (as.forM f) s (fun _ ↦ I) E := by
  induction as generalizing s with
  | nil => exact hs
  | cons a as ih =>
    refine Post.bind (x := f a) (f := fun _ ↦ as.forM f) (step a (by simp) s hs) fun _ t ht ↦ ?_
    exact ih (fun b hb ↦ step b (by simp [hb])) ht

theorem post_mapM {g : γ → Exec ε υ σ β} {I : σ → Prop} {E : ε → σ → Prop} {as : List γ}
    (step : ∀ a ∈ as, ∀ s, I s → Post (g a) s (fun _ ↦ I) E) {s : σ} (hs : I s) :
    Post (as.mapM g) s (fun _ ↦ I) E := by
  induction as generalizing s with
  | nil => exact hs
  | cons a as ih =>
    rw [List.mapM_cons]
    refine (step a (by simp) s hs).bind fun _ t ht ↦ ?_
    exact (ih (fun b hb ↦ step b (by simp [hb])) ht).bind fun _ _ h ↦ h

theorem run_mapM {g : γ → Exec ε υ σ β} {r : γ → β} {I : σ → Prop} {as : List γ}
    (step : ∀ a ∈ as, ∀ s, I s → ∃ t, g a s = .ok (r a) t ∧ I t) {s : σ} (hs : I s) :
    ∃ t, as.mapM g s = .ok (as.map r) t ∧ I t := by
  induction as generalizing s with
  | nil => exact ⟨s, rfl, hs⟩
  | cons a as ih =>
    obtain ⟨t, hrun, ht⟩ := step a (by simp) s hs
    obtain ⟨u, hrest, hu⟩ := ih (fun b hb ↦ step b (by simp [hb])) ht
    refine ⟨u, ?_, hu⟩
    rw [List.mapM_cons, run_bind_of_ok hrun, run_bind_of_ok hrest]
    rfl

/-- A loop whose rounds all return runs as the fold of what they do. `P` is what
the remaining rounds rely on. -/
theorem forM_ok {g : γ → σ → σ} {P : List γ → σ → Prop}
    (step : ∀ a as s, P (a :: as) s → f a s = .ok () (g a s) ∧ P as (g a s)) {as : List γ}
    (h : P as s) : as.forM f s = .ok () (as.foldl (fun s a ↦ g a s) s) := by
  induction as generalizing s with
  | nil => rfl
  | cons a as ih =>
    obtain ⟨hrun, hrest⟩ := step a as s h
    rw [forM_cons, hrun]
    exact ih hrest

end Loops

section Returning

variable {P Q : Prop}

/-- Whether a run returns does not hang on the state. -/
def ReturnsIff (x : Exec ε υ σ α) (P : Prop) : Prop := ∀ s, (∃ a t, x s = .ok a t) ↔ P

theorem ReturnsIff.congr (h : ReturnsIff x P) (hPQ : P ↔ Q) : ReturnsIff x Q :=
  fun s ↦ (h s).trans hPQ

theorem returnsIff_pure (a : α) : ReturnsIff (pure a : Exec ε υ σ α) True :=
  fun s ↦ iff_of_true ⟨a, s, rfl⟩ trivial

theorem returnsIff_throw (e : Fault ε υ) : ReturnsIff (throw e : Exec ε υ σ α) False := by
  refine fun s ↦ iff_of_false ?_ not_false
  rintro ⟨a, t, h⟩
  cases h

theorem returnsIff_modify (g : σ → σ) : ReturnsIff (modify g : Exec ε υ σ PUnit) True :=
  fun s ↦ iff_of_true ⟨⟨⟩, g s, rfl⟩ trivial

theorem returnsIff_ofExcept (r : Except (Fault ε υ) α) :
    ReturnsIff (Exec.ofExcept r : Exec ε υ σ α) (r.isOk = true) := by
  cases r with
  | ok a => exact (returnsIff_pure a).congr (iff_of_true trivial rfl)
  | error e => exact (returnsIff_throw e).congr (by simp [Except.isOk, Except.toBool])

theorem ReturnsIff.bind (hx : ReturnsIff x P) (hf : ∀ a, ReturnsIff (f a) Q) :
    ReturnsIff (x >>= f) (P ∧ Q) := by
  intro s
  constructor
  · rintro ⟨b, u, h⟩
    obtain ⟨a, t, hrun, hrest⟩ := run_bind_ok.mp h
    exact ⟨(hx s).mp ⟨a, t, hrun⟩, (hf a t).mp ⟨b, u, hrest⟩⟩
  · rintro ⟨hP, hQ⟩
    obtain ⟨a, t, hrun⟩ := (hx s).mpr hP
    obtain ⟨b, u, hrest⟩ := (hf a t).mpr hQ
    exact ⟨b, u, run_bind_ok.mpr ⟨a, t, hrun, hrest⟩⟩

theorem ReturnsIff.then (hx : ReturnsIff x True) (hf : ∀ a, ReturnsIff (f a) Q) :
    ReturnsIff (x >>= f) Q := (hx.bind hf).congr (iff_of_eq (true_and Q))

theorem ReturnsIff.focus {get : σ → τ} {set : σ → τ → σ} {y : Exec ε υ τ α}
    (h : ReturnsIff y P) : ReturnsIff (Exec.focus get set y) P := by
  refine fun s ↦ Iff.trans ?_ (h (get s))
  rw [Exec.focus]
  cases y (get s) <;> simp

end Returning

end FheBlockchain.Library.Execution
