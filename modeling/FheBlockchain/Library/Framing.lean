import FheBlockchain.Library.BigEndian

namespace FheBlockchain.Library.Framing

open BigEndian

variable {α δ γ γ' : Type} {P : α → Prop} {enc enc' : α → List UInt8} {view : α → γ}
variable {view' : α → γ'}

/-- The encoding of a value that satisfies `P` shows where it ends and, up to
what `view` sees, which value it encodes. -/
def SelfDelimiting (P : α → Prop) (enc : α → List UInt8) (view : α → γ) : Prop :=
  ∀ a b r s, P a → P b → enc a ++ r = enc b ++ s → view a = view b ∧ r = s

theorem SelfDelimiting.inj (h : SelfDelimiting P enc view) {a b : α} (ha : P a) (hb : P b)
    (he : enc a = enc b) : view a = view b :=
  (h a b [] [] ha hb (by rw [he])).1

theorem SelfDelimiting.comp (h : SelfDelimiting P enc view) (f : δ → α) :
    SelfDelimiting (P ∘ f) (enc ∘ f) (view ∘ f) :=
  fun a b r s ha hb he ↦ h (f a) (f b) r s ha hb he

theorem selfDelimiting_of_length {n : ℕ} (hlen : ∀ a, P a → (enc a).length = n)
    (hview : ∀ a b, P a → P b → enc a = enc b → view a = view b) : SelfDelimiting P enc view := by
  intro a b r s ha hb he
  obtain ⟨henc, hrest⟩ := List.append_inj he ((hlen a ha).trans (hlen b hb).symm)
  exact ⟨hview a b ha hb henc, hrest⟩

theorem selfDelimiting_bigEndian {k : ℕ} {num : α → ℕ} (hnum : ∀ a, P a → num a < 256 ^ k) :
    SelfDelimiting P (fun a ↦ bigEndian k (num a)) num :=
  selfDelimiting_of_length (fun _ _ ↦ length_bigEndian _ _) fun a b ha hb he ↦
    bigEndian_inj (hnum a ha) (hnum b hb) he

theorem SelfDelimiting.append_of (h : SelfDelimiting P enc view)
    (h' : ∀ a b r s, P a → P b → view a = view b → enc' a ++ r = enc' b ++ s →
      view' a = view' b ∧ r = s) :
    SelfDelimiting P (fun a ↦ enc a ++ enc' a) (fun a ↦ (view a, view' a)) := by
  intro a b r s ha hb he
  rw [List.append_assoc, List.append_assoc] at he
  obtain ⟨hview, hrest⟩ := h a b _ _ ha hb he
  obtain ⟨hview', hrest'⟩ := h' a b r s ha hb hview hrest
  exact ⟨Prod.ext hview hview', hrest'⟩

theorem SelfDelimiting.append (h : SelfDelimiting P enc view) (h' : SelfDelimiting P enc' view') :
    SelfDelimiting P (fun a ↦ enc a ++ enc' a) (fun a ↦ (view a, view' a)) :=
  h.append_of fun a b r s ha hb _ he ↦ h' a b r s ha hb he

theorem selfDelimiting_sized (enc : α → List UInt8) {k : ℕ} (hsize : ∀ a, P a → (enc a).length < 256 ^ k) :
    SelfDelimiting P (fun a ↦ bigEndian k (enc a).length ++ enc a) enc := by
  intro a b r s ha hb he
  rw [List.append_assoc, List.append_assoc] at he
  obtain ⟨hlen, hrest⟩ := selfDelimiting_bigEndian hsize a b _ _ ha hb he
  exact List.append_inj hrest hlen

theorem SelfDelimiting.flatten (h : SelfDelimiting P enc view) {as bs : List α} {r s : List UInt8}
    (hlen : as.length = bs.length) (has : ∀ a ∈ as, P a) (hbs : ∀ b ∈ bs, P b)
    (he : (as.map enc).flatten ++ r = (bs.map enc).flatten ++ s) :
    as.map view = bs.map view ∧ r = s := by
  induction as generalizing bs with
  | nil =>
    obtain rfl := List.length_eq_zero_iff.mp hlen.symm
    exact ⟨rfl, he⟩
  | cons a as ih =>
    cases bs with
    | nil => simp at hlen
    | cons b bs =>
      simp only [List.map_cons, List.flatten_cons, List.append_assoc] at he
      obtain ⟨hview, hrest⟩ := h a b _ _ (has a (by simp)) (hbs b (by simp)) he
      obtain ⟨hviews, hr⟩ := ih (Nat.succ.inj hlen) (fun a ha ↦ has a (by simp [ha]))
        (fun b hb ↦ hbs b (by simp [hb])) hrest
      exact ⟨by rw [List.map_cons, List.map_cons, hview, hviews], hr⟩

theorem SelfDelimiting.list (h : SelfDelimiting P enc view) (k : ℕ) :
    SelfDelimiting (fun as : List α ↦ as.length < 256 ^ k ∧ ∀ a ∈ as, P a)
      (fun as ↦ bigEndian k as.length ++ (as.map enc).flatten) (List.map view) := by
  intro as bs r s has hbs he
  rw [List.append_assoc, List.append_assoc] at he
  obtain ⟨hlen, hrest⟩ := selfDelimiting_bigEndian (k := k)
    (P := fun as : List α ↦ as.length < 256 ^ k) (fun _ h ↦ h) as bs _ _ has.1 hbs.1 he
  exact h.flatten hlen has.2 hbs.2 hrest

end FheBlockchain.Library.Framing
