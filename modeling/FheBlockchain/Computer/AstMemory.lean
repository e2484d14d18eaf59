import FheBlockchain.Computer.Ast

namespace FheBlockchain.Computer.AstMemory

open Ast Library.HoleTree

def Linked (nodes : ℕ → ASTNode) : Tree ℕ Op ℤ → Prop
  | .hole => True
  | .leaf i v => (nodes i).isLeaf = true ∧ ((nodes i).op = none ∧ (nodes i).val = v) ∧
    (nodes i).leftChild = none ∧ (nodes i).rightChild = none
  | .node i o l r =>
    ((nodes i).isLeaf = false ∧ (nodes i).op = some o) ∧ (nodes i).leftChild = l.root ∧
      (nodes i).rightChild = r.root ∧ Linked nodes l ∧ Linked nodes r

def LinkedAround (nodes : ℕ → ASTNode) : Context ℕ Op ℤ → Option ℕ → Prop
  | .top, _ => True
  | .left i o c r, q =>
    ((nodes i).isLeaf = false ∧ (nodes i).op = some o) ∧ (nodes i).leftChild = q ∧
      (nodes i).rightChild = r.root ∧ Linked nodes r ∧ LinkedAround nodes c (some i)
  | .right i o l c, q =>
    ((nodes i).isLeaf = false ∧ (nodes i).op = some o) ∧ (nodes i).rightChild = q ∧
      (nodes i).leftChild = l.root ∧ Linked nodes l ∧ LinkedAround nodes c (some i)

theorem linked_plug {nodes : ℕ → ASTNode} (c : Context ℕ Op ℤ) (t : Tree ℕ Op ℤ) :
    Linked nodes (c.plug t) ↔ Linked nodes t ∧ LinkedAround nodes c t.root := by
  induction c generalizing t with
  | top => simp [Context.plug, LinkedAround]
  | left i o c r ih =>
    simp only [Context.plug, ih, Linked, LinkedAround, Tree.root]
    tauto
  | right i o l c ih =>
    simp only [Context.plug, ih, Linked, LinkedAround, Tree.root]
    tauto

def multDepth (T : Tree ℕ Op ℤ) : ℕ := T.weight fun o ↦ if o = .mul then 1 else 0

def DepthsCached (nodes : ℕ → ASTNode) : Tree ℕ Op ℤ → Prop
  | .hole => True
  | .leaf i _ => (nodes i).depth = 0
  | .node i o l r =>
    (nodes i).depth = multDepth (.node i o l r) ∧ DepthsCached nodes l ∧ DepthsCached nodes r

instance (nodes : ℕ → ASTNode) : DecidablePred (Linked nodes) :=
  let rec go : (T : Tree ℕ Op ℤ) → Decidable (Linked nodes T)
    | .hole => inferInstanceAs (Decidable True)
    | .leaf _ _ => inferInstanceAs (Decidable (_ ∧ (_ ∧ _) ∧ _ ∧ _))
    | .node _ _ l r =>
      have := go l
      have := go r
      inferInstanceAs (Decidable ((_ ∧ _) ∧ _ ∧ _ ∧ _ ∧ _))
  go

instance (nodes : ℕ → ASTNode) : DecidablePred (DepthsCached nodes) :=
  let rec go : (T : Tree ℕ Op ℤ) → Decidable (DepthsCached nodes T)
    | .hole => inferInstanceAs (Decidable True)
    | .leaf _ _ => inferInstanceAs (Decidable (_ = _))
    | .node _ _ l r =>
      have := go l
      have := go r
      inferInstanceAs (Decidable (_ ∧ _ ∧ _))
  go

theorem DepthsCached.root {nodes : ℕ → ASTNode} {T : Tree ℕ Op ℤ} {i : ℕ}
    (h : DepthsCached nodes T) (hr : T.root = some i) : (nodes i).depth = multDepth T := by
  cases T with
  | hole => cases hr
  | leaf j v =>
    obtain rfl := Option.some.inj hr
    exact h
  | node j o l r =>
    obtain rfl := Option.some.inj hr
    exact h.1

theorem DepthsCached.getDepth {t : ASTree} {T : Tree ℕ Op ℤ} (h : DepthsCached t.nodes T) :
    t.getDepth T.root = multDepth T := by
  cases hr : T.root with
  | none =>
    cases T with
    | hole => rfl
    | leaf i v | node i o l r => cases hr
  | some i => exact h.root hr

theorem DepthsCached.congr {nodes nodes' : ℕ → ASTNode} {T : Tree ℕ Op ℤ}
    (h : DepthsCached nodes T) (he : ∀ i ∈ T.ids, (nodes' i).depth = (nodes i).depth) :
    DepthsCached nodes' T := by
  induction T with
  | hole => trivial
  | leaf i v => exact (he i (List.mem_singleton_self i)).trans h
  | node i o l r ihl ihr =>
    simp only [Tree.ids, List.mem_cons, List.mem_append] at he
    exact ⟨(he i (.inl rfl)).trans h.1, ihl h.2.1 fun j hj ↦ he j (.inr (.inl hj)),
      ihr h.2.2 fun j hj ↦ he j (.inr (.inr hj))⟩

def SameLabel (n m : ASTNode) : Prop :=
  m.isLeaf = n.isLeaf ∧ m.op = n.op ∧ m.val = n.val

theorem SameLabel.refl (n : ASTNode) : SameLabel n n := ⟨rfl, rfl, rfl⟩

theorem SameLabel.trans {n m k : ASTNode} (h : SameLabel n m) (h' : SameLabel m k) :
    SameLabel n k :=
  ⟨h'.1.trans h.1, h'.2.1.trans h.2.1, h'.2.2.trans h.2.2⟩

theorem Linked.congr {nodes nodes' : ℕ → ASTNode} {t : Tree ℕ Op ℤ} (h : Linked nodes t)
    (he : ∀ i ∈ t.ids, SameLabel (nodes i) (nodes' i) ∧
      (nodes' i).leftChild = (nodes i).leftChild ∧ (nodes' i).rightChild = (nodes i).rightChild) :
    Linked nodes' t := by
  induction t with
  | hole => trivial
  | leaf i v =>
    obtain ⟨⟨h₁, h₂, h₃⟩, h₄, h₅⟩ := he i (by simp [Tree.ids])
    exact ⟨h₁.trans h.1, ⟨h₂.trans h.2.1.1, h₃.trans h.2.1.2⟩, h₄.trans h.2.2.1, h₅.trans h.2.2.2⟩
  | node i o l r ihl ihr =>
    obtain ⟨⟨h₁, h₂, -⟩, h₃, h₄⟩ := he i (by simp [Tree.ids])
    exact ⟨⟨h₁.trans h.1.1, h₂.trans h.1.2⟩, h₃.trans h.2.1, h₄.trans h.2.2.1,
      ihl h.2.2.2.1 (fun j hj ↦ he j (by simp [Tree.ids, hj])),
      ihr h.2.2.2.2 (fun j hj ↦ he j (by simp [Tree.ids, hj]))⟩

theorem LinkedAround.congr {nodes nodes' : ℕ → ASTNode} {c : Context ℕ Op ℤ} {q : Option ℕ}
    (h : LinkedAround nodes c q) (he : ∀ i ∈ c.ids, SameLabel (nodes i) (nodes' i) ∧
      (nodes' i).leftChild = (nodes i).leftChild ∧ (nodes' i).rightChild = (nodes i).rightChild) :
    LinkedAround nodes' c q := by
  induction c generalizing q with
  | top => trivial
  | left i o c s ih | right i o s c ih =>
    obtain ⟨⟨h₁, h₂, -⟩, h₃, h₄⟩ := he i (by simp [Context.ids])
    refine ⟨⟨h₁.trans h.1.1, h₂.trans h.1.2⟩, ?_, ?_,
      h.2.2.2.1.congr (fun j hj ↦ he j (by simp [Context.ids, hj])),
      ih h.2.2.2.2 (fun j hj ↦ he j (by simp [Context.ids, hj]))⟩ <;>
    simp only [h₃, h₄, h.2.1, h.2.2.1]

def Points (nodes : ℕ → ASTNode) (i j : ℕ) : Prop :=
  (nodes i).leftChild = some j ∨ (nodes i).rightChild = some j

theorem root_mem {t : Tree ℕ Op ℤ} {i : ℕ} (h : t.root = some i) : i ∈ t.ids := by
  cases t <;> simp_all [Tree.root, Tree.ids]

theorem Linked.child_mem {nodes : ℕ → ASTNode} {t : Tree ℕ Op ℤ} (h : Linked nodes t) {i j : ℕ}
    (hi : i ∈ t.ids) (hj : Points nodes i j) : j ∈ t.ids := by
  induction t with
  | hole => simp [Tree.ids] at hi
  | leaf k v =>
    obtain rfl : i = k := by simpa [Tree.ids] using hi
    simp [Points, h.2.2.1, h.2.2.2] at hj
  | node k o l r ihl ihr =>
    simp only [Tree.ids, List.mem_cons, List.mem_append] at hi ⊢
    rcases hi with rfl | hi | hi
    · rw [Points, h.2.1, h.2.2.1] at hj
      exact .inr (hj.imp root_mem root_mem)
    · exact .inr (.inl (ihl h.2.2.2.1 hi))
    · exact .inr (.inr (ihr h.2.2.2.2 hi))

theorem LinkedAround.child_mem {nodes : ℕ → ASTNode} {c : Context ℕ Op ℤ} {q : Option ℕ}
    (h : LinkedAround nodes c q) {i j : ℕ} (hi : i ∈ c.ids) (hj : Points nodes i j) :
    q = some j ∨ j ∈ c.ids := by
  induction c generalizing q with
  | top => simp [Context.ids] at hi
  | left k o c s ih | right k o s c ih =>
    simp only [Context.ids, List.mem_cons, List.mem_append] at hi ⊢
    rcases hi with rfl | hi | hi
    · rw [Points, h.2.1, h.2.2.1] at hj
      rcases hj with hj | hj
      all_goals first
        | exact .inl hj
        | exact .inr (.inr (.inl (root_mem hj)))
    · exact .inr (.inr (.inl (h.2.2.2.1.child_mem hi hj)))
    · rcases ih h.2.2.2.2 hi with hk | hk
      · exact .inr (.inl (Option.some.inj hk).symm)
      · exact .inr (.inr (.inr hk))

def owner : Context ℕ Op ℤ → Option ℕ
  | .top => none
  | .left i _ _ _ | .right i _ _ _ => some i

theorem LinkedAround.owner_eq {nodes : ℕ → ASTNode} {c : Context ℕ Op ℤ} {n i : ℕ}
    (h : LinkedAround nodes c (some n)) (hn : n ∉ c.ids) (hi : i ∈ c.ids)
    (hp : Points nodes i n) : owner c = some i := by
  cases c with
  | top => simp [Context.ids] at hi
  | left k o c s | right k o s c =>
    simp only [Context.ids, List.mem_cons, List.mem_append, not_or] at hi hn
    rcases hi with rfl | hi | hi
    · rfl
    · exact absurd (h.2.2.2.1.child_mem hi hp) hn.2.1
    · rcases h.2.2.2.2.child_mem hi hp with hk | hk
      · exact absurd (Option.some.inj hk).symm hn.1
      · exact absurd hk hn.2.2

/-- The link leading to the subtree moves from `n` to `x`, and nothing else
on the path changes. -/
theorem LinkedAround.retarget {nodes nodes' : ℕ → ASTNode} {c : Context ℕ Op ℤ} {n x : ℕ}
    (h : LinkedAround nodes c (some n)) (hc : c.ids.Nodup) (hn : n ∉ c.ids)
    (he : ∀ i ∈ c.ids, SameLabel (nodes i) (nodes' i) ∧
      (nodes' i).leftChild = (if owner c = some i ∧ (nodes i).rightChild ≠ some n ∧
        (nodes i).leftChild = some n then some x else (nodes i).leftChild) ∧
      (nodes' i).rightChild = (if owner c = some i ∧ (nodes i).rightChild = some n
        then some x else (nodes i).rightChild)) :
    LinkedAround nodes' c (some x) := by
  cases c with
  | top => trivial
  | left k o c s | right k o s c =>
    simp only [Context.ids, List.mem_cons, List.mem_append, not_or, List.nodup_cons] at hn hc he
    obtain ⟨⟨h₁, h₂, -⟩, h₃, h₄⟩ := he k (.inl rfl)
    have hs : s.root ≠ some n := fun hs ↦ hn.2.1 (root_mem hs)
    have hkeep {j : ℕ} (hj : j ∈ s.ids ∨ j ∈ c.ids) : SameLabel (nodes j) (nodes' j) ∧
        (nodes' j).leftChild = (nodes j).leftChild ∧
        (nodes' j).rightChild = (nodes j).rightChild := by
      have hkj : k ≠ j := by
        rintro rfl
        exact hj.elim hc.1.1 hc.1.2
      simpa [owner, hkj] using he j (.inr hj)
    refine ⟨⟨h₁.trans h.1.1, h₂.trans h.1.2⟩, ?_, ?_,
      h.2.2.2.1.congr (fun j hj ↦ hkeep (.inl hj)),
      h.2.2.2.2.congr (fun j hj ↦ hkeep (.inr hj))⟩
    · simp [h₃, h₄, h.2.1, h.2.2.1, owner, hs]
    · simp [h₃, h₄, h.2.1, h.2.2.1, owner, hs]

/-- The tree `T` stands in the memory of `t`; parent links may be stale, but
each names a neighbour of its node. -/
structure Rep (t : ASTree) (T : Tree ℕ Op ℤ) : Prop where
  linked : Linked t.nodes T
  nodup : T.ids.Nodup
  bounded : T.Bounded (fun i ↦ (t.nodes i).parent) none none
  fresh : ∀ i ∈ T.ids, i < t.nodeCounter

theorem Rep.congr {t t' : ASTree} {T : Tree ℕ Op ℤ} (h : Rep t T)
    (he : ∀ i, SameLabel (t.nodes i) (t'.nodes i) ∧
      (t'.nodes i).leftChild = (t.nodes i).leftChild ∧
      (t'.nodes i).rightChild = (t.nodes i).rightChild)
    (hp : ∀ i, (t'.nodes i).parent = (t.nodes i).parent)
    (hcount : t'.nodeCounter = t.nodeCounter) : Rep t' T where
  linked := h.linked.congr fun i _ ↦ he i
  nodup := h.nodup
  bounded := h.bounded.congr fun i _ ↦ hp i
  fresh := hcount ▸ h.fresh

theorem Rep.length_le {t : ASTree} {T : Tree ℕ Op ℤ} (h : Rep t T) :
    T.ids.length ≤ t.nodeCounter := by
  have hsub : T.ids ⊆ List.range t.nodeCounter := fun i hi ↦ List.mem_range.mpr (h.fresh i hi)
  simpa using (List.subperm_of_subset h.nodup hsub).length_le

theorem nodup_plug {c : Context ℕ Op ℤ} (s : Tree ℕ Op ℤ) :
    (c.plug s).ids.Nodup ↔ (s.ids ++ c.ids).Nodup :=
  (c.ids_plug s).nodup_iff

theorem Linked.product {t : ASTree} {s : Tree ℕ Op ℤ} (h : Linked t.nodes s)
    (hm : t.isMul s.root = true) : ∃ i l r, s = .node i .mul l r := by
  cases s with
  | hole => simp [Tree.root, ASTree.isMul] at hm
  | leaf i v => simp [Tree.root, ASTree.isMul, h.2.1.1] at hm
  | node i o l r =>
    obtain rfl : o = .mul := by simpa [Tree.root, ASTree.isMul, h.1.2] using hm
    exact ⟨i, l, r, rfl⟩

def parentCurrent (t : ASTree) (node : ℕ) : Bool :=
  match (t.nodes node).parent with
  | none => true
  | some p => (t.nodes p).leftChild = some node ∨ (t.nodes p).rightChild = some node

theorem Rep.parent_link {t : ASTree} {c : Context ℕ Op ℤ} {s : Tree ℕ Op ℤ} {n : ℕ}
    (h : Rep t (c.plug s)) (hs : s.root = some n) :
    ((t.nodes n).parent = c.lo ∨ (t.nodes n).parent = c.hi) ∧
      ((t.nodes n).parent = none → c.lo = none ∧ c.hi = none) := by
  obtain ⟨hbs, -⟩ := (c.bounded_plug ..).mp h.bounded
  cases s <;> simp_all [Tree.root, Tree.Bounded]

theorem Rep.parent_eq_owner {t : ASTree} {c : Context ℕ Op ℤ} {s : Tree ℕ Op ℤ} {n : ℕ}
    (h : Rep t (c.plug s)) (hs : s.root = some n) (hc : parentCurrent t n = true) :
    (t.nodes n).parent = owner c := by
  obtain ⟨-, hla⟩ := (linked_plug ..).mp h.linked
  have hn : n ∉ c.ids := fun hn ↦
    List.disjoint_of_nodup_append ((nodup_plug s).mp h.nodup) (root_mem hs) hn
  have hlink := h.parent_link hs
  cases hp : (t.nodes n).parent with
  | none =>
    obtain ⟨hlo, hhi⟩ := hlink.2 hp
    cases c <;> simp_all [Context.lo, Context.hi, owner]
  | some p =>
    have hmem : p ∈ c.ids :=
      Context.neighbour_mem (hlink.1.imp (fun h ↦ h.symm.trans hp) (fun h ↦ h.symm.trans hp))
    have hpt : Points t.nodes p n := by simpa [parentCurrent, hp, Points] using hc
    rw [hs] at hla
    exact (hla.owner_eq hn hmem hpt).symm

theorem modify_nodes (t : ASTree) (i j : ℕ) (f : ASTNode → ASTNode) :
    (t.modify i f).nodes j = if j = i then f (t.nodes j) else t.nodes j := by
  by_cases h : j = i
  · subst h
    simp [ASTree.modify]
  · simp [ASTree.modify, h]

/-- A subtree and its surroundings both stand in memory, but the link from one
to the other may still have an old value `q`. -/
structure Hung (t : ASTree) (c : Context ℕ Op ℤ) (q : Option ℕ) (s : Tree ℕ Op ℤ) : Prop where
  linked : Linked t.nodes s
  around : LinkedAround t.nodes c q
  nodup : (c.plug s).ids.Nodup
  bounded : (c.plug s).Bounded (fun i ↦ (t.nodes i).parent) none none
  fresh : ∀ i ∈ (c.plug s).ids, i < t.nodeCounter

section SetChild

variable {t : ASTree} {n x : ℕ} {o : Op} {c : Context ℕ Op ℤ} {r s : Tree ℕ Op ℤ} {q : Option ℕ}

theorem Hung.setLeftChild (h : Hung t (.left n o c r) q s) (hx : s.root = some x) :
    Rep (t.modify n fun m ↦ { m with leftChild := some x }) ((Context.left n o c r).plug s) := by
  have hnd := (nodup_plug s).mp h.nodup
  simp only [Context.ids, List.nodup_append, List.nodup_cons, List.mem_append, not_or] at hnd
  obtain ⟨-, ⟨⟨hnr, hnc⟩, -⟩, hdisj⟩ := hnd
  have hns : n ∉ s.ids := fun hn ↦ hdisj n hn n (by simp) rfl
  have hkeep {j : ℕ} (hj : j ≠ n) :
      (t.modify n fun m ↦ { m with leftChild := some x }).nodes j = t.nodes j := by
    rw [modify_nodes, if_neg hj]
  have hsame {j : ℕ} (hj : j ≠ n) {m : ASTNode} (he : m = t.nodes j) : SameLabel (t.nodes j) m ∧
      m.leftChild = (t.nodes j).leftChild ∧ m.rightChild = (t.nodes j).rightChild :=
    he ▸ ⟨SameLabel.refl _, rfl, rfl⟩
  obtain ⟨⟨hleaf, hop⟩, hq, hr, hlr, hla⟩ := h.around
  refine ⟨(linked_plug ..).mpr ⟨?_, ?_⟩, h.nodup, ?_, h.fresh⟩
  · exact h.linked.congr fun j hj ↦ hsame (by grind) (hkeep (by grind))
  · refine ⟨?_, ?_, ?_, ?_, ?_⟩
    · simpa [modify_nodes] using ⟨hleaf, hop⟩
    · simp [modify_nodes, hx]
    · simpa [modify_nodes] using hr
    · exact hlr.congr fun j hj ↦ hsame (by grind) (hkeep (by grind))
    · exact hla.congr fun j hj ↦ hsame (by grind) (hkeep (by grind))
  · refine h.bounded.congr fun j _ ↦ ?_
    rw [modify_nodes]
    split_ifs <;> rfl

theorem Hung.setRightChild (h : Hung t (.right n o r c) q s) (hx : s.root = some x) :
    Rep (t.modify n fun m ↦ { m with rightChild := some x })
      ((Context.right n o r c).plug s) := by
  have hnd := (nodup_plug s).mp h.nodup
  simp only [Context.ids, List.nodup_append, List.nodup_cons, List.mem_append, not_or] at hnd
  obtain ⟨-, ⟨⟨hnr, hnc⟩, -⟩, hdisj⟩ := hnd
  have hns : n ∉ s.ids := fun hn ↦ hdisj n hn n (by simp) rfl
  have hkeep {j : ℕ} (hj : j ≠ n) :
      (t.modify n fun m ↦ { m with rightChild := some x }).nodes j = t.nodes j := by
    rw [modify_nodes, if_neg hj]
  have hsame {j : ℕ} (hj : j ≠ n) {m : ASTNode} (he : m = t.nodes j) : SameLabel (t.nodes j) m ∧
      m.leftChild = (t.nodes j).leftChild ∧ m.rightChild = (t.nodes j).rightChild :=
    he ▸ ⟨SameLabel.refl _, rfl, rfl⟩
  obtain ⟨⟨hleaf, hop⟩, hq, hr, hlr, hla⟩ := h.around
  refine ⟨(linked_plug ..).mpr ⟨?_, ?_⟩, h.nodup, ?_, h.fresh⟩
  · exact h.linked.congr fun j hj ↦ hsame (by grind) (hkeep (by grind))
  · refine ⟨?_, ?_, ?_, ?_, ?_⟩
    · simpa [modify_nodes] using ⟨hleaf, hop⟩
    · simp [modify_nodes, hx]
    · simpa [modify_nodes] using hr
    · exact hlr.congr fun j hj ↦ hsame (by grind) (hkeep (by grind))
    · exact hla.congr fun j hj ↦ hsame (by grind) (hkeep (by grind))
  · refine h.bounded.congr fun j _ ↦ ?_
    rw [modify_nodes]
    split_ifs <;> rfl

end SetChild

end FheBlockchain.Computer.AstMemory
