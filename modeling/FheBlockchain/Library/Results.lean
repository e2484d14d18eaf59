import Mathlib.Data.List.Forall2

namespace FheBlockchain.Library.Results

variable {ε α β γ : Type}

theorem bind_eq_ok {x : Except ε α} {f : α → Except ε β} {b : β} :
    x >>= f = .ok b ↔ ∃ a, x = .ok a ∧ f a = .ok b := by
  cases x with
  | ok a => simp [bind, Except.bind]
  | error e => simp [bind, Except.bind]

theorem bind_pure_eq_ok {x : Except ε α} {f : α → β} (hf : Function.Injective f) {a : α} :
    (x >>= fun a ↦ pure (f a)) = .ok (f a) ↔ x = .ok a := by
  rw [bind_eq_ok]
  constructor
  · intro h
    obtain ⟨b, hb, he⟩ := h
    rw [hb, hf (Except.ok.inj he)]
  · intro h
    exact ⟨a, h, rfl⟩

theorem isOk_iff {x : Except ε α} : x.isOk = true ↔ ∃ a, x = .ok a := by
  cases x with
  | ok a => simp [Except.isOk, Except.toBool]
  | error e => simp [Except.isOk, Except.toBool]

theorem of_toOption {x : Except ε α} {a : α} (h : x.toOption = some a) : x = .ok a := by
  cases x with
  | ok b => rw [Option.some.inj h]
  | error e => cases h

section Loops

variable {f : α → Except ε β} {as : List α} {bs : List β}

theorem mapM_cons_ok {a : α} {b : β} (ha : f a = .ok b) (has : as.mapM f = .ok bs) :
    (a :: as).mapM f = .ok (b :: bs) := by
  rw [List.mapM_cons, ha]
  simp only [bind, Except.bind, has]
  rfl

theorem mapM_map_ok {g : β → α} (h : ∀ b ∈ bs, f (g b) = .ok b) : (bs.map g).mapM f = .ok bs := by
  induction bs with
  | nil => rfl
  | cons b bs ih => exact mapM_cons_ok (h b (by simp)) (ih fun c hc ↦ h c (by simp [hc]))

theorem isOk_mapM : (as.mapM f).isOk = true ↔ ∀ a ∈ as, (f a).isOk = true := by
  induction as with
  | nil => simp [pure, Except.pure, Except.isOk, Except.toBool]
  | cons a as ih =>
    rw [List.forall_mem_cons, ← ih, List.mapM_cons]
    simp only [isOk_iff, bind_eq_ok, pure, Except.pure, Except.ok.injEq]
    constructor
    · rintro ⟨_, b, hb, bs, hbs, -⟩
      exact ⟨⟨b, hb⟩, bs, hbs⟩
    · rintro ⟨⟨b, hb⟩, bs, hbs⟩
      exact ⟨_, b, hb, bs, hbs, rfl⟩

theorem forall₂_mapM (h : as.mapM f = .ok bs) : List.Forall₂ (fun a b ↦ f a = .ok b) as bs := by
  induction as generalizing bs with
  | nil =>
    obtain rfl := Except.ok.inj h
    exact .nil
  | cons a as ih =>
    rw [List.mapM_cons, bind_eq_ok] at h
    obtain ⟨b, hb, h⟩ := h
    obtain ⟨rest, hrest, he⟩ := bind_eq_ok.mp h
    obtain rfl := Except.ok.inj he
    exact .cons hb (ih hrest)

end Loops

section Related

variable {R S : α → β → Prop} {as : List α} {bs : List β}

theorem exists_of_forall₂ (h : List.Forall₂ R as bs) {a : α} (ha : a ∈ as) : ∃ b ∈ bs, R a b := by
  induction h with
  | nil => simp at ha
  | cons hr _ ih =>
    rcases List.mem_cons.mp ha with rfl | ha
    · exact ⟨_, List.mem_cons_self, hr⟩
    · obtain ⟨b, hb, hab⟩ := ih ha
      exact ⟨b, List.mem_cons_of_mem _ hb, hab⟩

theorem pairwise_of_forall₂ {P : α → α → Prop} {Q : β → β → Prop} (h : List.Forall₂ R as bs)
    (has : as.Pairwise P) (hPQ : ∀ {a a' b b'}, R a b → R a' b' → P a a' → Q b b') :
    bs.Pairwise Q := by
  induction h with
  | nil => exact .nil
  | cons hr hrest ih =>
    obtain ⟨hfirst, has⟩ := List.pairwise_cons.mp has
    refine List.pairwise_cons.mpr ⟨fun b hb ↦ ?_, ih has⟩
    obtain ⟨a, ha, hab⟩ := exists_of_forall₂ hrest.flip hb
    exact hPQ hr hab (hfirst a ha)

theorem getElem?_of_forall₂ {as as' : List α} {a : α} {bs : List β}
    (h : List.Forall₂ R (as ++ a :: as') bs) : ∃ b, bs[as.length]? = some b ∧ R a b := by
  induction as generalizing bs with
  | nil =>
    cases h with
    | cons hr _ => exact ⟨_, rfl, hr⟩
  | cons a' as ih =>
    cases h with
    | cons _ hrest =>
      obtain ⟨b, hb, hr⟩ := ih hrest
      exact ⟨b, by simpa using hb, hr⟩

theorem forall₂_of_map {f : α → β} {as bs : List α} (h : as.map f = bs.map f) :
    List.Forall₂ (fun a b ↦ f a = f b) as bs := by
  rw [← List.forall₂_eq_eq_eq, List.forall₂_map_left_iff, List.forall₂_map_right_iff] at h
  exact h

theorem map_eq_of_forall₂ {f : α → γ} {as bs : List α}
    (h : List.Forall₂ (fun a b ↦ f b = f a) as bs) : bs.map f = as.map f := by
  induction h with
  | nil => rfl
  | cons hr _ ih => rw [List.map_cons, List.map_cons, hr, ih]

theorem forall₂_and (h : List.Forall₂ R as bs) (h' : List.Forall₂ S as bs) :
    List.Forall₂ (fun a b ↦ R a b ∧ S a b) as bs := by
  induction h with
  | nil => exact .nil
  | cons hr _ ih =>
    cases h' with
    | cons hs hrest => exact .cons ⟨hr, hs⟩ (ih hrest)

theorem forall₂_mem (h : List.Forall₂ R as bs) :
    List.Forall₂ (fun a b ↦ a ∈ as ∧ b ∈ bs ∧ R a b) as bs := by
  induction h with
  | nil => exact .nil
  | cons hr _ ih =>
    refine .cons ⟨List.mem_cons_self, List.mem_cons_self, hr⟩ (ih.imp fun a b h ↦ ?_)
    exact ⟨List.mem_cons_of_mem _ h.1, List.mem_cons_of_mem _ h.2.1, h.2.2⟩

theorem forall₂_of_mapM {f : α → Except ε β} {R : β → β → Prop} {as bs : List α} {ks ls : List β}
    (ha : as.mapM f = .ok ks) (hb : bs.mapM f = .ok ls) (h : List.Forall₂ R ks ls) :
    List.Forall₂ (fun a b ↦ ∃ k l, f a = .ok k ∧ f b = .ok l ∧ R k l) as bs := by
  have has := forall₂_mapM ha
  have hbs := forall₂_mapM hb
  clear ha hb
  induction has generalizing bs ls with
  | nil =>
    cases h
    cases hbs
    exact .nil
  | cons hk _ ih =>
    cases h with
    | cons hr hrest =>
      cases hbs with
      | cons hl hbs => exact .cons ⟨_, _, hk, hl, hr⟩ (ih hrest hbs)

end Related

end FheBlockchain.Library.Results
