import Mathlib.Data.List.Perm.Basic
import Mathlib.Data.List.Nodup

namespace FheBlockchain.Library.HoleTree

variable {ι Ω Λ α : Type}

/-- A binary operator tree that is still being built. A node carries the
address it is stored at, and a `hole` stands for a child not yet supplied. -/
inductive Tree (ι Ω Λ : Type)
  | hole
  | leaf (i : ι) (v : Λ)
  | node (i : ι) (o : Ω) (l r : Tree ι Ω Λ)

/-- The path from a subtree up to the root, innermost frame first. -/
inductive Context (ι Ω Λ : Type)
  | top
  | left (i : ι) (o : Ω) (c : Context ι Ω Λ) (r : Tree ι Ω Λ)
  | right (i : ι) (o : Ω) (l : Tree ι Ω Λ) (c : Context ι Ω Λ)

namespace Tree

def root : Tree ι Ω Λ → Option ι
  | hole => none
  | leaf i _ | node i _ _ _ => some i

def ids : Tree ι Ω Λ → List ι
  | hole => []
  | leaf i _ => [i]
  | node i _ l r => i :: (l.ids ++ r.ids)

def holes : Tree ι Ω Λ → ℕ
  | hole => 1
  | leaf _ _ => 0
  | node _ _ l r => l.holes + r.holes

def weight (w : Ω → ℕ) : Tree ι Ω Λ → ℕ
  | hole | leaf _ _ => 0
  | node _ o l r => w o + max (l.weight w) (r.weight w)

def isHole : Tree ι Ω Λ → Bool
  | hole => true
  | leaf _ _ | node _ _ _ _ => false

theorem isHole_iff {t : Tree ι Ω Λ} : t.isHole = true ↔ t = hole := by
  cases t <;> simp [isHole]

def freeOwner : Tree ι Ω Λ → Option ι
  | hole | leaf _ _ => none
  | node i _ l r =>
    if r.isHole then some i else r.freeOwner.or (if l.isHole then some i else l.freeOwner)

theorem holes_of_freeOwner {t : Tree ι Ω Λ} (h : t ≠ hole) (hf : t.freeOwner = none) :
    t.holes = 0 := by
  induction t with
  | hole => exact absurd rfl h
  | leaf i v => rfl
  | node i o l r ihl ihr =>
    simp only [freeOwner] at hf
    split_ifs at hf with hr hl
    · simp at hf
    · simp only [Option.or_eq_none_iff] at hf
      rw [isHole_iff] at hr hl
      simp [holes, ihl hl hf.2, ihr hr hf.1]

end Tree

namespace Context

def plug : Context ι Ω Λ → Tree ι Ω Λ → Tree ι Ω Λ
  | top, t => t
  | left i o c r, t => c.plug (.node i o t r)
  | right i o l c, t => c.plug (.node i o l t)

def ids : Context ι Ω Λ → List ι
  | top => []
  | left i _ c r => i :: (r.ids ++ c.ids)
  | right i _ l c => i :: (l.ids ++ c.ids)

def depth : Context ι Ω Λ → ℕ
  | top => 0
  | left _ _ c _ | right _ _ _ c => c.depth + 1

def RightFull : Context ι Ω Λ → Prop
  | top => True
  | left _ _ c r => r.holes = 0 ∧ c.RightFull
  | right _ _ _ c => c.RightFull

def append : Context ι Ω Λ → Context ι Ω Λ → Context ι Ω Λ
  | top, d => d
  | left i o c r, d => left i o (c.append d) r
  | right i o l c, d => right i o l (c.append d)

theorem plug_append (c d : Context ι Ω Λ) (t : Tree ι Ω Λ) :
    (c.append d).plug t = d.plug (c.plug t) := by
  induction c generalizing t with
  | top => rfl
  | left i o c r ih => exact ih _
  | right i o l c ih => exact ih _

theorem RightFull.append {c d : Context ι Ω Λ} (hc : c.RightFull) (hd : d.RightFull) :
    (c.append d).RightFull := by
  induction c with
  | top => exact hd
  | left i o c r ih => exact ⟨hc.1, ih hc.2⟩
  | right i o l c ih => exact ih hc

theorem ids_plug (c : Context ι Ω Λ) (t : Tree ι Ω Λ) :
    (c.plug t).ids.Perm (t.ids ++ c.ids) := by
  induction c generalizing t with
  | top => simp [plug, ids]
  | left i o c r ih =>
    refine (ih _).trans ?_
    simp only [Tree.ids, ids, List.cons_append, List.append_assoc]
    exact (@List.perm_middle _ i t.ids _).symm
  | right i o l c ih =>
    refine (ih _).trans ?_
    simp only [Tree.ids, ids, List.cons_append]
    refine (List.Perm.cons i ?_).trans (@List.perm_middle _ i t.ids _).symm
    rw [← List.append_assoc]
    exact List.perm_append_comm.append_right _

end Context

theorem Context.root_plug {c : Context ι Ω Λ} (h : c ≠ .top) (t t' : Tree ι Ω Λ) :
    (c.plug t).root = (c.plug t').root := by
  induction c generalizing t t' with
  | top => exact absurd rfl h
  | left i o c r ih | right i o r c ih =>
    by_cases hc : c = .top
    · subst hc
      rfl
    · exact ih hc _ _

theorem Context.plug_perm (c : Context ι Ω Λ) {t t' : Tree ι Ω Λ} (h : t.ids.Perm t'.ids) :
    (c.plug t).ids.Perm (c.plug t').ids :=
  (c.ids_plug t).trans ((h.append_right _).trans (c.ids_plug t').symm)

theorem Tree.rotate_perm (i j : ι) (o o' : Ω) (a b c : Tree ι Ω Λ) :
    (node j o' a (node i o b c)).ids.Perm (node i o (node j o' a b) c).ids := by
  simpa [ids] using @List.perm_middle _ i (j :: a.ids) (b.ids ++ c.ids)

theorem Context.depth_le (c : Context ι Ω Λ) : c.depth ≤ c.ids.length := by
  induction c with
  | top => exact Nat.zero_le _
  | left i o c r ih | right i o r c ih =>
    simp only [depth, ids, List.length_cons, List.length_append]
    omega

theorem Context.holes_plug (c : Context ι Ω Λ) {t t' : Tree ι Ω Λ} {k : ℕ}
    (h : t'.holes = t.holes + k) : (c.plug t').holes = (c.plug t).holes + k := by
  induction c generalizing t t' with
  | top => exact h
  | left i o c r ih | right i o r c ih =>
    refine ih ?_
    simp only [Tree.holes, h]
    omega

theorem Context.isHole_plug (c : Context ι Ω Λ) {t : Tree ι Ω Λ} (h : t.isHole = false) :
    (c.plug t).isHole = false := by
  induction c generalizing t with
  | top => exact h
  | left i o c r ih | right i o r c ih => exact ih rfl

/-- Rotations of the operator `o`, anywhere in the tree and in any number. -/
inductive Tree.Reshaped (o : Ω) : Tree ι Ω Λ → Tree ι Ω Λ → Prop
  | refl (t : Tree ι Ω Λ) : Reshaped o t t
  | right {t : Tree ι Ω Λ} (d : Context ι Ω Λ) (i j : ι) (a b c : Tree ι Ω Λ)
    (h : Reshaped o t (d.plug (.node i o (.node j o a b) c))) :
    Reshaped o t (d.plug (.node j o a (.node i o b c)))
  | left {t : Tree ι Ω Λ} (d : Context ι Ω Λ) (i j : ι) (a b c : Tree ι Ω Λ)
    (h : Reshaped o t (d.plug (.node j o a (.node i o b c)))) :
    Reshaped o t (d.plug (.node i o (.node j o a b) c))

theorem Tree.Reshaped.trans {o : Ω} {t t' t'' : Tree ι Ω Λ} (h : Reshaped o t t')
    (h' : Reshaped o t' t'') : Reshaped o t t'' := by
  induction h' with
  | refl => exact h
  | right d i j a b c _ ih => exact .right d i j a b c ih
  | left d i j a b c _ ih => exact .left d i j a b c ih

theorem Tree.Reshaped.isHole {o : Ω} {t t' : Tree ι Ω Λ} (h : Reshaped o t t')
    (ht : t.isHole = false) : t'.isHole = false := by
  cases h with
  | refl => exact ht
  | right d | left d => exact d.isHole_plug rfl

theorem Tree.Reshaped.holes {o : Ω} {t t' : Tree ι Ω Λ} (h : Reshaped o t t') :
    t'.holes = t.holes := by
  induction h with
  | refl => rfl
  | right d i j a b c _ ih | left d i j a b c _ ih =>
    rw [← ih]
    exact d.holes_plug (k := 0) (by simp only [Tree.holes]; omega)

theorem Tree.Reshaped.ids_perm {o : Ω} {t t' : Tree ι Ω Λ} (h : Reshaped o t t') :
    t'.ids.Perm t.ids := by
  induction h with
  | refl => exact .refl _
  | right d i j a b c _ ih => exact (d.plug_perm (rotate_perm i j o o a b c)).trans ih
  | left d i j a b c _ ih => exact (d.plug_perm (rotate_perm i j o o a b c).symm).trans ih

def Tree.size : Tree ι Ω Λ → ℕ
  | .hole | .leaf _ _ => 0
  | .node _ _ l r => l.size + r.size + 1

def Tree.labels : Tree ι Ω Λ → List Λ
  | .hole => []
  | .leaf _ v => [v]
  | .node _ _ l r => l.labels ++ r.labels

theorem Tree.size_succ (t : Tree ι Ω Λ) : t.size + 1 = t.holes + t.labels.length := by
  induction t with
  | hole | leaf i v => rfl
  | node i o l r ihl ihr =>
    simp only [Tree.size, Tree.holes, Tree.labels, List.length_append]
    omega

theorem Context.weight_plug (w : Ω → ℕ) (c : Context ι Ω Λ) {t t' : Tree ι Ω Λ}
    (h : t'.weight w = t.weight w) : (c.plug t').weight w = (c.plug t).weight w := by
  induction c generalizing t t' with
  | top => exact h
  | left i o c r ih | right i o r c ih =>
    refine ih ?_
    simp only [Tree.weight, h]

theorem Context.labels_plug (c : Context ι Ω Λ) {t t' : Tree ι Ω Λ} (h : t'.labels = t.labels) :
    (c.plug t').labels = (c.plug t).labels := by
  induction c generalizing t t' with
  | top => exact h
  | left i o c r ih | right i o r c ih =>
    refine ih ?_
    simp only [Tree.labels, h]

theorem Tree.Reshaped.labels {o : Ω} {t t' : Tree ι Ω Λ} (h : Reshaped o t t') :
    t'.labels = t.labels := by
  induction h with
  | refl => rfl
  | right d i j a b c _ ih | left d i j a b c _ ih =>
    rw [← ih]
    refine d.labels_plug ?_
    simp only [Tree.labels, List.append_assoc]

/-- The owner of the rightmost hole, with the position of that hole below it:
everything to its right is complete, and so is its right child when the hole
is the left one. -/
theorem Tree.freeOwner_position {t : Tree ι Ω Λ} {i : ι} (h : t.freeOwner = some i) :
    ∃ (c : Context ι Ω Λ) (o : Ω) (l r : Tree ι Ω Λ), t = c.plug (.node i o l r) ∧
      c.RightFull ∧ (r = .hole ∨ r.holes = 0 ∧ l = .hole) := by
  induction t with
  | hole | leaf _ _ => simp [Tree.freeOwner] at h
  | node j o l r ihl ihr =>
    by_cases hr : r.isHole = true
    · obtain rfl : j = i := by simpa [Tree.freeOwner, hr] using h
      exact ⟨.top, o, l, r, rfl, trivial, .inl (Tree.isHole_iff.mp hr)⟩
    · simp only [Tree.freeOwner, hr] at h
      cases hfr : r.freeOwner with
      | some k =>
        obtain rfl : k = i := by simpa [hfr] using h
        obtain ⟨c, o', l', r', rfl, hc, hpos⟩ := ihr hfr
        exact ⟨c.append (.right j o l .top), o', l', r', (c.plug_append ..).symm ▸ rfl,
          hc.append trivial, hpos⟩
      | none =>
        have hfull := Tree.holes_of_freeOwner (fun he ↦ hr (Tree.isHole_iff.mpr he)) hfr
        by_cases hl : l.isHole = true
        · obtain rfl : j = i := by simpa [hfr, hl] using h
          exact ⟨.top, o, l, r, rfl, trivial, .inr ⟨hfull, Tree.isHole_iff.mp hl⟩⟩
        · obtain ⟨c, o', l', r', rfl, hc, hpos⟩ := ihl (by simpa [hfr, hl] using h)
          exact ⟨c.append (.left j o .top r), o', l', r', (c.plug_append ..).symm ▸ rfl,
            hc.append ⟨hfull, trivial⟩, hpos⟩

structure Algebra (Ω Λ α : Type*) where
  leaf : Λ → α
  op : Ω → α → α → α

section Evaluation

variable {β : Type*} [Inhabited β] (A : Algebra Ω Λ β)

/-- The value of a tree whose holes take their values from a list, the
rightmost hole first, together with the values that are left over. -/
def Tree.eval : Tree ι Ω Λ → List β → β × List β
  | .hole, s => (s.head?.getD default, s.tail)
  | .leaf _ v, s => (A.leaf v, s)
  | .node _ o l r, s =>
    (A.op o (l.eval (r.eval s).2).1 (r.eval s).1, (l.eval (r.eval s).2).2)

def Tree.Same (t t' : Tree ι Ω Λ) : Prop := ∀ s, t.eval A s = t'.eval A s

theorem Context.plug_same (c : Context ι Ω Λ) {t t' : Tree ι Ω Λ} (h : t.Same A t') :
    (c.plug t).Same A (c.plug t') := by
  induction c generalizing t t' with
  | top => exact h
  | left i o c r ih => exact ih (fun s ↦ by simp only [Tree.eval, h _])
  | right i o l c ih => exact ih (fun s ↦ by simp only [Tree.eval, h _])

theorem Tree.rotate_same {o : Ω} (ho : ∀ a b c, A.op o (A.op o a b) c = A.op o a (A.op o b c))
    (i j : ι) (a b c : Tree ι Ω Λ) :
    (Tree.node i o (.node j o a b) c).Same A (.node j o a (.node i o b c)) := by
  intro s
  simp only [Tree.eval, ho]

theorem Tree.Reshaped.same {o : Ω}
    (ho : ∀ a b c, A.op o (A.op o a b) c = A.op o a (A.op o b c)) {t t' : Tree ι Ω Λ}
    (h : t.Reshaped o t') : t.Same A t' := by
  induction h with
  | refl => exact fun _ ↦ rfl
  | right d i j a b c _ ih =>
    exact fun s ↦ (ih s).trans (d.plug_same A (rotate_same A ho i j a b c) s)
  | left d i j a b c _ ih =>
    exact fun s ↦ (ih s).trans (d.plug_same A (rotate_same A ho i j a b c) s).symm

theorem Tree.eval_full {t : Tree ι Ω Λ} (h : t.holes = 0) (s s' : List β) :
    (t.eval A s).2 = s ∧ (t.eval A s).1 = (t.eval A s').1 := by
  induction t generalizing s s' with
  | hole => simp [Tree.holes] at h
  | leaf i v => exact ⟨rfl, rfl⟩
  | node i o l r ihl ihr =>
    simp only [Tree.holes, Nat.add_eq_zero_iff] at h
    obtain ⟨hr, hr'⟩ := ihr h.2 s s'
    obtain ⟨hl, hl'⟩ := ihl h.1 (r.eval A s).2 (r.eval A s').2
    exact ⟨hl.trans hr, by simp only [Tree.eval, hr', hl']⟩

/-- A subtree with nothing free to its right is evaluated first, so it can be
replaced by a hole that takes its value. -/
theorem Context.eval_plug {c : Context ι Ω Λ} (hc : c.RightFull) (t : Tree ι Ω Λ) (s : List β) :
    (c.plug t).eval A s = (c.plug .hole).eval A ((t.eval A s).1 :: (t.eval A s).2) := by
  induction c generalizing t s with
  | top => rfl
  | left i o c r ih =>
    have hr (s' : List β) := Tree.eval_full A hc.1 s' s
    simp only [plug]
    rw [ih hc.2, ih hc.2 (.node i o .hole r)]
    simp [Tree.eval, (hr _).1, (hr (_ :: _)).2]
  | right i o l c ih =>
    simp only [plug]
    rw [ih hc, ih hc (.node i o l .hole)]
    simp [Tree.eval]

end Evaluation

section ParentLinks

variable (par : ι → Option ι)

/-- Every parent link names one of the two addresses next to the subtree in
the left-to-right order: `lo` to its left, `hi` to its right. One of them is
the real parent. -/
def Tree.Bounded : Option ι → Option ι → Tree ι Ω Λ → Prop
  | _, _, .hole => True
  | lo, hi, .leaf i _ => (par i = lo ∨ par i = hi) ∧ (par i = none → lo = none ∧ hi = none)
  | lo, hi, .node i _ l r =>
    ((par i = lo ∨ par i = hi) ∧ (par i = none → lo = none ∧ hi = none)) ∧
      l.Bounded lo (some i) ∧ r.Bounded (some i) hi

def Context.lo : Context ι Ω Λ → Option ι
  | .top => none
  | .left _ _ c _ => c.lo
  | .right i _ _ _ => some i

def Context.hi : Context ι Ω Λ → Option ι
  | .top => none
  | .left i _ _ _ => some i
  | .right _ _ _ c => c.hi

def Context.Bounded : Context ι Ω Λ → Prop
  | .top => True
  | .left i _ c r =>
    ((par i = c.lo ∨ par i = c.hi) ∧ (par i = none → c.lo = none ∧ c.hi = none)) ∧
      r.Bounded par (some i) c.hi ∧ c.Bounded
  | .right i _ l c =>
    ((par i = c.lo ∨ par i = c.hi) ∧ (par i = none → c.lo = none ∧ c.hi = none)) ∧
      l.Bounded par c.lo (some i) ∧ c.Bounded

theorem Context.bounded_plug (c : Context ι Ω Λ) (t : Tree ι Ω Λ) :
    (c.plug t).Bounded par none none ↔ t.Bounded par c.lo c.hi ∧ c.Bounded par := by
  induction c generalizing t with
  | top => simp [plug, Context.lo, Context.hi, Context.Bounded]
  | left i o c r ih =>
    simp only [plug, ih, Tree.Bounded, Context.lo, Context.hi, Context.Bounded]
    tauto
  | right i o l c ih =>
    simp only [plug, ih, Tree.Bounded, Context.lo, Context.hi, Context.Bounded]
    tauto

variable {par}

theorem Tree.Bounded.congr {par' : ι → Option ι} {lo hi : Option ι} {t : Tree ι Ω Λ}
    (h : t.Bounded par lo hi) (he : ∀ i ∈ t.ids, par' i = par i) : t.Bounded par' lo hi := by
  induction t generalizing lo hi with
  | hole => trivial
  | leaf i v => simpa [Tree.Bounded, he i (by simp [Tree.ids])] using h
  | node i o l r ihl ihr =>
    refine ⟨by simpa [he i (by simp [Tree.ids])] using h.1, ihl h.2.1 (fun j hj ↦ ?_),
      ihr h.2.2 (fun j hj ↦ ?_)⟩ <;> exact he j (by simp [Tree.ids, hj])

theorem Context.Bounded.congr {par' : ι → Option ι} {c : Context ι Ω Λ} (h : c.Bounded par)
    (he : ∀ i ∈ c.ids, par' i = par i) : c.Bounded par' := by
  induction c with
  | top => trivial
  | left i o c r ih =>
    refine ⟨by simpa [he i (by simp [Context.ids])] using h.1, h.2.1.congr (fun j hj ↦ ?_),
      ih h.2.2 (fun j hj ↦ ?_)⟩ <;> exact he j (by simp [Context.ids, hj])
  | right i o l c ih =>
    refine ⟨by simpa [he i (by simp [Context.ids])] using h.1, h.2.1.congr (fun j hj ↦ ?_),
      ih h.2.2 (fun j hj ↦ ?_)⟩ <;> exact he j (by simp [Context.ids, hj])

theorem Context.neighbour_mem {c : Context ι Ω Λ} {a : ι}
    (h : c.lo = some a ∨ c.hi = some a) : a ∈ c.ids := by
  induction c with
  | top => simp [Context.lo, Context.hi] at h
  | left i o c r ih | right i o r c ih =>
    simp only [Context.lo, Context.hi, Option.some.injEq, Context.ids, List.mem_cons,
      List.mem_append] at h ⊢
    rcases h with h | h
    all_goals first
      | exact .inl h.symm
      | exact .inr (.inr (ih (by simp [h])))

/-- Either neighbour of a subtree is a proper ancestor of it. -/
theorem Context.ancestor {c : Context ι Ω Λ} {a : ι} (h : c.lo = some a ∨ c.hi = some a)
    (t : Tree ι Ω Λ) :
    ∃ (d : Context ι Ω Λ) (o : Ω) (l r : Tree ι Ω Λ),
      c.plug t = d.plug (.node a o l r) ∧ d.depth < c.depth := by
  induction c generalizing t with
  | top => simp [Context.lo, Context.hi] at h
  | left i o c r ih =>
    simp only [Context.lo, Context.hi, Option.some.injEq] at h
    rcases h with h | rfl
    · obtain ⟨d, o', l', r', he, hd⟩ := ih (.inl h) (.node i o t r)
      exact ⟨d, o', l', r', he, Nat.lt_succ_of_lt hd⟩
    · exact ⟨c, o, t, r, rfl, Nat.lt_succ_self _⟩
  | right i o l c ih =>
    simp only [Context.lo, Context.hi, Option.some.injEq] at h
    rcases h with rfl | h
    · exact ⟨c, o, l, t, rfl, Nat.lt_succ_self _⟩
    · obtain ⟨d, o', l', r', he, hd⟩ := ih (.inr h) (.node i o l t)
      exact ⟨d, o', l', r', he, Nat.lt_succ_of_lt hd⟩

end ParentLinks

end FheBlockchain.Library.HoleTree
