import FheBlockchain.Computer.AstMemory

namespace FheBlockchain.Computer.AstRotation

open Ast AstMemory Library.HoleTree

section Memory

variable (t : ASTree)

theorem modify_label {f : ASTNode → ASTNode} (hf : ∀ n, SameLabel n (f n)) (i j : ℕ) :
    SameLabel (t.nodes j) ((t.modify i f).nodes j) := by
  rw [modify_nodes]
  split_ifs with h
  · exact hf _
  · exact SameLabel.refl _

theorem notifyParent_label (q : Option ℕ) (x n i : ℕ) :
    SameLabel (t.nodes i) ((t.notifyParent q x n).nodes i) := by
  cases q with
  | none => exact SameLabel.refl _
  | some p =>
    simp only [ASTree.notifyParent, ASTree.notifyChildChange]
    split_ifs
    · refine modify_label t ?_ _ _
      exact fun _ ↦ ⟨rfl, rfl, rfl⟩
    · refine modify_label t ?_ _ _
      exact fun _ ↦ ⟨rfl, rfl, rfl⟩
    · exact SameLabel.refl _

theorem notifyParent_links (q : Option ℕ) (x n i : ℕ) :
    ((t.notifyParent q x n).nodes i).leftChild =
      (if q = some i ∧ (t.nodes i).rightChild ≠ some n ∧ (t.nodes i).leftChild = some n
        then some x else (t.nodes i).leftChild) ∧
    ((t.notifyParent q x n).nodes i).rightChild =
      (if q = some i ∧ (t.nodes i).rightChild = some n then some x
        else (t.nodes i).rightChild) ∧
    ((t.notifyParent q x n).nodes i).parent = (t.nodes i).parent := by
  cases q with
  | none => simp [ASTree.notifyParent]
  | some p =>
    simp only [ASTree.notifyParent, ASTree.notifyChildChange]
    by_cases hi : p = i
    · subst hi
      split_ifs <;> simp_all [modify_nodes]
    · have hi' : i ≠ p := Ne.symm hi
      split_ifs <;> simp_all [modify_nodes]

theorem updateDepth_links (i j : ℕ) :
    ((t.updateDepth i).nodes j).leftChild = (t.nodes j).leftChild ∧
      ((t.updateDepth i).nodes j).rightChild = (t.nodes j).rightChild ∧
      ((t.updateDepth i).nodes j).parent = (t.nodes j).parent := by
  simp only [ASTree.updateDepth, modify_nodes]
  split_ifs <;> exact ⟨rfl, rfl, rfl⟩

theorem notifyParent_frame (q : Option ℕ) (x n : ℕ) :
    (t.notifyParent q x n).nodeCounter = t.nodeCounter ∧ (t.notifyParent q x n).root = t.root ∧
      (t.notifyParent q x n).nodeStack = t.nodeStack := by
  cases q with
  | none => exact ⟨rfl, rfl, rfl⟩
  | some p =>
    simp only [ASTree.notifyParent, ASTree.notifyChildChange]
    split_ifs <;> exact ⟨rfl, rfl, rfl⟩

end Memory

/-- What a rotation of `n` below its child `x` leaves in memory outside the
child links of these two nodes. The grandchild handed over to `n` keeps its
`parent`. -/
structure Rotated (t t' : ASTree) (n x : ℕ) : Prop where
  nodeCounter : t'.nodeCounter = t.nodeCounter
  root : t'.root = t.root
  nodeStack : t'.nodeStack = t.nodeStack
  label : ∀ i, SameLabel (t.nodes i) (t'.nodes i)
  leftChild : ∀ i, i ≠ n → i ≠ x → (t'.nodes i).leftChild =
    if (t.nodes n).parent = some i ∧ (t.nodes i).rightChild ≠ some n ∧
      (t.nodes i).leftChild = some n then some x else (t.nodes i).leftChild
  rightChild : ∀ i, i ≠ n → i ≠ x → (t'.nodes i).rightChild =
    if (t.nodes n).parent = some i ∧ (t.nodes i).rightChild = some n then some x
    else (t.nodes i).rightChild
  parent : ∀ i, (t'.nodes i).parent =
    if i = n then some x else if i = x then (t.nodes n).parent else (t.nodes i).parent

variable {t : ASTree} {n x : ℕ}

theorem rightRotate_rotated (hx : (t.nodes n).leftChild = some x) (hnx : n ≠ x)
    (hn : (t.nodes n).parent ≠ some n) (hxp : (t.nodes n).parent ≠ some x) :
    ∃ t', t.rightRotate n = .ok (t', x) ∧ Rotated t t' n x ∧
      (t'.nodes n).leftChild = (t.nodes x).rightChild ∧
      (t'.nodes n).rightChild = (t.nodes n).rightChild ∧
      (t'.nodes x).leftChild = (t.nodes x).leftChild ∧ (t'.nodes x).rightChild = some n := by
  simp only [ASTree.rightRotate, hx]
  refine ⟨_, rfl, ⟨?_, ?_, ?_, ?_, ?_, ?_, ?_⟩, ?_, ?_, ?_, ?_⟩
  case refine_8 | refine_9 | refine_10 | refine_11 =>
    simp [updateDepth_links, modify_nodes, notifyParent_links, hnx, Ne.symm hnx, hn, hxp]
  case refine_1 | refine_2 | refine_3 =>
    simp [ASTree.updateDepth, ASTree.modify, notifyParent_frame]
  · intro i
    refine (modify_label _ ?_ _ _).trans ((modify_label _ ?_ _ _).trans ((modify_label _ ?_ _ _).trans
      ((notifyParent_label _ _ _ _ _).trans ((modify_label _ ?_ _ _).trans
        ((modify_label _ ?_ _ _).trans (modify_label _ ?_ _ _))))))
    all_goals exact fun _ ↦ ⟨rfl, rfl, rfl⟩
  · intro i hi hi'
    simp [updateDepth_links, modify_nodes, notifyParent_links, hnx, hi, hi']
  · intro i hi hi'
    simp [updateDepth_links, modify_nodes, notifyParent_links, hnx, hi, hi']
  · intro i
    by_cases hi : i = n
    · simp [updateDepth_links, modify_nodes, hi]
    · by_cases hi' : i = x
      · simp [updateDepth_links, modify_nodes, notifyParent_links, hi', hnx, Ne.symm hnx]
      · simp [updateDepth_links, modify_nodes, notifyParent_links, hi, hi']

theorem leftRotate_rotated (hx : (t.nodes n).rightChild = some x) (hnx : n ≠ x)
    (hn : (t.nodes n).parent ≠ some n) (hxp : (t.nodes n).parent ≠ some x) :
    ∃ t', t.leftRotate n = .ok (t', x) ∧ Rotated t t' n x ∧
      (t'.nodes n).rightChild = (t.nodes x).leftChild ∧
      (t'.nodes n).leftChild = (t.nodes n).leftChild ∧
      (t'.nodes x).rightChild = (t.nodes x).rightChild ∧ (t'.nodes x).leftChild = some n := by
  simp only [ASTree.leftRotate, hx]
  refine ⟨_, rfl, ⟨?_, ?_, ?_, ?_, ?_, ?_, ?_⟩, ?_, ?_, ?_, ?_⟩
  case refine_8 | refine_9 | refine_10 | refine_11 =>
    simp [updateDepth_links, modify_nodes, notifyParent_links, hnx, Ne.symm hnx, hn, hxp]
  case refine_1 | refine_2 | refine_3 =>
    simp [ASTree.updateDepth, ASTree.modify, notifyParent_frame]
  · intro i
    refine (modify_label _ ?_ _ _).trans ((modify_label _ ?_ _ _).trans ((modify_label _ ?_ _ _).trans
      ((notifyParent_label _ _ _ _ _).trans ((modify_label _ ?_ _ _).trans
        ((modify_label _ ?_ _ _).trans (modify_label _ ?_ _ _))))))
    all_goals exact fun _ ↦ ⟨rfl, rfl, rfl⟩
  · intro i hi hi'
    simp [updateDepth_links, modify_nodes, notifyParent_links, hnx, hi, hi']
  · intro i hi hi'
    simp [updateDepth_links, modify_nodes, notifyParent_links, hnx, hi, hi']
  · intro i
    by_cases hi : i = n
    · simp [updateDepth_links, modify_nodes, hi]
    · by_cases hi' : i = x
      · simp [updateDepth_links, modify_nodes, notifyParent_links, hi', hnx, Ne.symm hnx]
      · simp [updateDepth_links, modify_nodes, notifyParent_links, hi, hi']

namespace Rotated

variable {t' : ASTree} (h : Rotated t t' n x)

include h

theorem linked {s : Tree ℕ Op ℤ} (hs : Linked t.nodes s) (hn : n ∉ s.ids) (hx : x ∉ s.ids) :
    Linked t'.nodes s := by
  refine hs.congr fun i hi ↦ ⟨h.label i, ?_, ?_⟩
  · rw [h.leftChild i (by grind) (by grind)]
    exact if_neg fun hp ↦ hn (hs.child_mem hi (.inl hp.2.2))
  · rw [h.rightChild i (by grind) (by grind)]
    exact if_neg fun hp ↦ hn (hs.child_mem hi (.inr hp.2))

theorem around {c : Context ℕ Op ℤ} (hc : LinkedAround t.nodes c (some n)) (hnd : c.ids.Nodup)
    (hn : n ∉ c.ids) (hx : x ∉ c.ids) (hp : (t.nodes n).parent = owner c) :
    LinkedAround t'.nodes c (some x) := by
  refine hc.retarget hnd hn fun i hi ↦ ⟨h.label i, ?_, ?_⟩
  · rw [h.leftChild i (by grind) (by grind), hp]
  · rw [h.rightChild i (by grind) (by grind), hp]

theorem around_stale {c : Context ℕ Op ℤ} (hc : LinkedAround t.nodes c (some n))
    (hn : n ∉ c.ids) (hx : x ∉ c.ids) (hp : (t.nodes n).parent ≠ owner c) :
    LinkedAround t'.nodes c (some n) := by
  have hstale {i : ℕ} (hi : i ∈ c.ids) (hpt : Points t.nodes i n) :
      (t.nodes n).parent ≠ some i :=
    fun he ↦ hp (he.trans (hc.owner_eq hn hi hpt).symm)
  refine hc.congr fun i hi ↦ ⟨h.label i, ?_, ?_⟩
  · rw [h.leftChild i (by grind) (by grind)]
    exact if_neg fun hq ↦ hstale hi (.inl hq.2.2) hq.1
  · rw [h.rightChild i (by grind) (by grind)]
    exact if_neg fun hq ↦ hstale hi (.inr hq.2) hq.1

theorem bounded_congr {s : Tree ℕ Op ℤ} {lo hi : Option ℕ}
    (hs : s.Bounded (fun i ↦ (t.nodes i).parent) lo hi) (hn : n ∉ s.ids) (hx : x ∉ s.ids) :
    s.Bounded (fun i ↦ (t'.nodes i).parent) lo hi :=
  hs.congr fun i hi ↦ by rw [h.parent, if_neg (by grind), if_neg (by grind)]

theorem bounded_around {c : Context ℕ Op ℤ} (hc : c.Bounded (fun i ↦ (t.nodes i).parent))
    (hn : n ∉ c.ids) (hx : x ∉ c.ids) : c.Bounded (fun i ↦ (t'.nodes i).parent) :=
  hc.congr fun i hi ↦ by rw [h.parent, if_neg (by grind), if_neg (by grind)]

end Rotated

section Turn

variable {c : Context ℕ Op ℤ} {a b d r : Tree ℕ Op ℤ} {o o' o₁ o₂ : Op} {y : ℕ}

/-- A right rotation in the middle of a tree. Its last part says what the node
above points at, which depends on whether `n` knew its parent. -/
theorem rightRotate_turn (h : Rep t (c.plug (.node n o (.node x o' a b) r))) :
    ∃ t', t.rightRotate n = .ok (t', x) ∧ Rotated t t' n x ∧
      Linked t'.nodes (.node x o' a (.node n o b r)) ∧
      (c.plug (.node x o' a (.node n o b r))).Bounded
        (fun i ↦ (t'.nodes i).parent) none none ∧
      LinkedAround t'.nodes c
        (if (t.nodes n).parent = owner c then some x else some n) := by
  obtain ⟨hs, hc⟩ := (linked_plug ..).mp h.linked
  obtain ⟨hbs, hbc⟩ := (c.bounded_plug ..).mp h.bounded
  have hnd := (nodup_plug _).mp h.nodup
  have hcnd : c.ids.Nodup := hnd.of_append_right
  simp only [Tree.ids, List.cons_append, List.nodup_cons, List.mem_cons, List.mem_append,
    List.append_assoc, not_or] at hnd
  obtain ⟨⟨hnx, hna, hnb, hnr, hnc⟩, ⟨hxa, hxb, hxr, hxc⟩, -⟩ := hnd
  have hpar (i : ℕ) (hi : i ∉ c.ids) : (t.nodes n).parent ≠ some i := fun he ↦
    hi (Context.neighbour_mem (hbs.1.1.imp (fun h' ↦ h'.symm.trans he) (fun h' ↦ h'.symm.trans he)))
  obtain ⟨t', hrun, hrot, hnl, hnr', hxl, hxr'⟩ :=
    rightRotate_rotated hs.2.1 hnx (hpar n hnc) (hpar x hxc)
  refine ⟨t', hrun, hrot, ?_, ?_, ?_⟩
  · obtain ⟨hn₁, -, hn₃, ⟨hx₁, hx₂, hx₃, hx₄, hx₅⟩, hn₅⟩ := hs
    have hlabel {i : ℕ} {o : Op} (hi : (t.nodes i).isLeaf = false ∧ (t.nodes i).op = some o) :
        (t'.nodes i).isLeaf = false ∧ (t'.nodes i).op = some o :=
      ⟨(hrot.label i).1.trans hi.1, (hrot.label i).2.1.trans hi.2⟩
    exact ⟨hlabel hx₁, hxl.trans hx₂, hxr', hrot.linked hx₄ hna hxa, hlabel hn₁, hnl.trans hx₃,
      hnr'.trans hn₃, hrot.linked hx₅ hnb hxb, hrot.linked hn₅ hnr hxr⟩
  · obtain ⟨hn₁, ⟨-, hba, hbb⟩, hbr⟩ := hbs
    refine (c.bounded_plug ..).mpr ⟨⟨?_, hrot.bounded_congr hba hna hxa, ⟨?_, ?_⟩,
      hrot.bounded_congr hbb hnb hxb, hrot.bounded_congr hbr hnr hxr⟩,
      hrot.bounded_around hbc hnc hxc⟩
    · simpa [hrot.parent, Ne.symm hnx] using hn₁
    · simp [hrot.parent]
    · simp [hrot.parent]
  · split_ifs with hp
    · exact hrot.around hc hcnd hnc hxc hp
    · exact hrot.around_stale hc hnc hxc hp

theorem leftRotate_turn (h : Rep t (c.plug (.node n o r (.node x o' b a)))) :
    ∃ t', t.leftRotate n = .ok (t', x) ∧ Rotated t t' n x ∧
      Linked t'.nodes (.node x o' (.node n o r b) a) ∧
      (c.plug (.node x o' (.node n o r b) a)).Bounded
        (fun i ↦ (t'.nodes i).parent) none none ∧
      LinkedAround t'.nodes c
        (if (t.nodes n).parent = owner c then some x else some n) := by
  obtain ⟨hs, hc⟩ := (linked_plug ..).mp h.linked
  obtain ⟨hbs, hbc⟩ := (c.bounded_plug ..).mp h.bounded
  have hnd := (nodup_plug _).mp h.nodup
  have hcnd : c.ids.Nodup := hnd.of_append_right
  simp only [Tree.ids, List.cons_append, List.nodup_cons, List.mem_cons, List.mem_append,
    List.append_assoc, not_or] at hnd
  obtain ⟨⟨hnr, hnx, hnb, hna, hnc⟩, hnd⟩ := hnd
  have hxr : x ∉ r.ids := fun hx ↦ List.disjoint_of_nodup_append hnd hx (by simp)
  obtain ⟨hxb, hxa, hxc⟩ : x ∉ b.ids ∧ x ∉ a.ids ∧ x ∉ c.ids := by
    simpa using hnd.of_append_right.notMem
  have hpar (i : ℕ) (hi : i ∉ c.ids) : (t.nodes n).parent ≠ some i := fun he ↦
    hi (Context.neighbour_mem (hbs.1.1.imp (fun h' ↦ h'.symm.trans he) (fun h' ↦ h'.symm.trans he)))
  obtain ⟨t', hrun, hrot, hnl, hnr', hxl, hxr'⟩ :=
    leftRotate_rotated hs.2.2.1 hnx (hpar n hnc) (hpar x hxc)
  refine ⟨t', hrun, hrot, ?_, ?_, ?_⟩
  · obtain ⟨hn₁, hn₂, -, hn₄, hx₁, hx₂, hx₃, hx₄, hx₅⟩ := hs
    have hlabel {i : ℕ} {o : Op} (hi : (t.nodes i).isLeaf = false ∧ (t.nodes i).op = some o) :
        (t'.nodes i).isLeaf = false ∧ (t'.nodes i).op = some o :=
      ⟨(hrot.label i).1.trans hi.1, (hrot.label i).2.1.trans hi.2⟩
    exact ⟨hlabel hx₁, hxr', hxl.trans hx₃, ⟨hlabel hn₁, hnr'.trans hn₂, hnl.trans hx₂,
      hrot.linked hn₄ hnr hxr, hrot.linked hx₄ hnb hxb⟩, hrot.linked hx₅ hna hxa⟩
  · obtain ⟨hn₁, hbr, -, hbb, hba⟩ := hbs
    refine (c.bounded_plug ..).mpr ⟨⟨?_, ⟨⟨?_, ?_⟩, hrot.bounded_congr hbr hnr hxr,
      hrot.bounded_congr hbb hnb hxb⟩, hrot.bounded_congr hba hna hxa⟩,
      hrot.bounded_around hbc hnc hxc⟩
    · simpa [hrot.parent, Ne.symm hnx] using hn₁
    · simp [hrot.parent]
    · simp [hrot.parent]
  · split_ifs with hp
    · exact hrot.around hc hcnd hnc hxc hp
    · exact hrot.around_stale hc hnc hxc hp

theorem rightRotate_rep (h : Rep t (c.plug (.node n o (.node x o' a b) r)))
    (hp : (t.nodes n).parent = owner c) :
    ∃ t', t.rightRotate n = .ok (t', x) ∧ Rotated t t' n x ∧
      Rep t' (c.plug (.node x o' a (.node n o b r))) := by
  obtain ⟨t', hrun, hrot, hl, hb, hc⟩ := rightRotate_turn h
  have hperm := c.plug_perm (Tree.rotate_perm n x o o' a b r)
  rw [if_pos hp] at hc
  exact ⟨t', hrun, hrot, (linked_plug ..).mpr ⟨hl, hc⟩, hperm.nodup_iff.mpr h.nodup, hb,
    fun i hi ↦ hrot.nodeCounter ▸ h.fresh i (hperm.mem_iff.mp hi)⟩

theorem leftRotate_rep (h : Rep t (c.plug (.node n o r (.node x o' b a))))
    (hp : (t.nodes n).parent = owner c) :
    ∃ t', t.leftRotate n = .ok (t', x) ∧ Rotated t t' n x ∧
      Rep t' (c.plug (.node x o' (.node n o r b) a)) := by
  obtain ⟨t', hrun, hrot, hl, hb, hc⟩ := leftRotate_turn h
  have hperm := c.plug_perm (Tree.rotate_perm x n o' o r b a).symm
  rw [if_pos hp] at hc
  exact ⟨t', hrun, hrot, (linked_plug ..).mpr ⟨hl, hc⟩, hperm.nodup_iff.mpr h.nodup, hb,
    fun i hi ↦ hrot.nodeCounter ▸ h.fresh i (hperm.mem_iff.mp hi)⟩

/-- The first half of a double rotation. Storing the returned root in the child
link of `n` makes up for a parent link of `y` that is stale. -/
theorem leftRotate_below (h : Rep t ((Context.left n o c r).plug (.node y o₁ a (.node x o₂ b d)))) :
    ∃ t', t.leftRotate y = .ok (t', x) ∧ Rotated t t' y x ∧
      Linked t'.nodes (.node x o₂ (.node y o₁ a b) d) ∧
      Rep (t'.modify n fun m ↦ { m with leftChild := some x })
        ((Context.left n o c r).plug (.node x o₂ (.node y o₁ a b) d)) := by
  obtain ⟨t', hrun, hrot, hl, hb, hc⟩ := leftRotate_turn h
  have hperm := (Context.left n o c r).plug_perm (Tree.rotate_perm x y o₂ o₁ a b d).symm
  exact ⟨t', hrun, hrot, hl, Hung.setLeftChild ⟨hl, hc, hperm.nodup_iff.mpr h.nodup, hb,
    fun i hi ↦ hrot.nodeCounter ▸ h.fresh i (hperm.mem_iff.mp hi)⟩ rfl⟩

theorem rightRotate_below (h : Rep t ((Context.right n o r c).plug (.node y o₁ (.node x o₂ a b) d))) :
    ∃ t', t.rightRotate y = .ok (t', x) ∧ Rotated t t' y x ∧
      Linked t'.nodes (.node x o₂ a (.node y o₁ b d)) ∧
      Rep (t'.modify n fun m ↦ { m with rightChild := some x })
        ((Context.right n o r c).plug (.node x o₂ a (.node y o₁ b d))) := by
  obtain ⟨t', hrun, hrot, hl, hb, hc⟩ := rightRotate_turn h
  have hperm := (Context.right n o r c).plug_perm (Tree.rotate_perm y x o₁ o₂ a b d)
  exact ⟨t', hrun, hrot, hl, Hung.setRightChild ⟨hl, hc, hperm.nodup_iff.mpr h.nodup, hb,
    fun i hi ↦ hrot.nodeCounter ▸ h.fresh i (hperm.mem_iff.mp hi)⟩ rfl⟩

end Turn

section Depths

def kind (m : ASTNode) : Bool × Option Op := (m.countsForDepth, m.op)

def Settled (t : ASTree) (i : ℕ) : Prop :=
  (t.nodes i).depth = 1 + max (t.getDepth (t.nodes i).leftChild) (t.getDepth (t.nodes i).rightChild)

theorem updateDepth_depth (t : ASTree) (i j : ℕ) : ((t.updateDepth i).nodes j).depth =
    if j = i then 1 + max (t.getDepth (t.nodes i).leftChild) (t.getDepth (t.nodes i).rightChild)
    else (t.nodes j).depth := by
  rw [ASTree.updateDepth, modify_nodes]
  split_ifs with h
  · rw [h]
  · rfl

theorem getDepth_updateDepth {q : Option ℕ} {i : ℕ} (h : q ≠ some i) :
    (t.updateDepth i).getDepth q = t.getDepth q := by
  cases q with
  | none => rfl
  | some j => exact (updateDepth_depth t i j).trans (if_neg fun he ↦ h (congrArg some he))

theorem updateDepth_settled {i : ℕ} (hl : (t.nodes i).leftChild ≠ some i)
    (hr : (t.nodes i).rightChild ≠ some i) : Settled (t.updateDepth i) i := by
  obtain ⟨hleft, hright, -⟩ := updateDepth_links t i i
  rw [Settled, hleft, hright, getDepth_updateDepth hl, getDepth_updateDepth hr, updateDepth_depth,
    if_pos rfl]

theorem Settled.updateDepth {i j : ℕ} (h : Settled t i) (hij : i ≠ j)
    (hl : (t.nodes i).leftChild ≠ some j) (hr : (t.nodes i).rightChild ≠ some j) :
    Settled (t.updateDepth j) i := by
  obtain ⟨hleft, hright, -⟩ := updateDepth_links t j i
  rw [Settled, hleft, hright, getDepth_updateDepth hl, getDepth_updateDepth hr, updateDepth_depth,
    if_neg hij]
  exact h

theorem modify_keeps {α : Type} (f : ASTNode → α) {g : ASTNode → ASTNode} (hg : ∀ n, f (g n) = f n)
    (t : ASTree) (i j : ℕ) : f ((t.modify i g).nodes j) = f (t.nodes j) := by
  rw [modify_nodes]
  split_ifs
  · exact hg _
  · rfl

theorem notifyParent_keeps {α : Type} (f : ASTNode → α)
    (hl : ∀ n q, f { n with leftChild := q } = f n) (hr : ∀ n q, f { n with rightChild := q } = f n)
    (t : ASTree) (q : Option ℕ) (x n i : ℕ) :
    f ((t.notifyParent q x n).nodes i) = f (t.nodes i) := by
  cases q with
  | none => rfl
  | some p =>
    simp only [ASTree.notifyParent, ASTree.notifyChildChange]
    split_ifs
    · exact modify_keeps f (fun _ ↦ hr _ _) _ _ _
    · exact modify_keeps f (fun _ ↦ hl _ _) _ _ _
    · rfl

structure Redepthed (t t' : ASTree) (n x : ℕ) : Prop where
  depth : ∀ i, i ≠ n → i ≠ x → (t'.nodes i).depth = (t.nodes i).depth
  kind : ∀ i, kind (t'.nodes i) = kind (t.nodes i)
  lower : (t'.nodes n).leftChild ≠ some n → (t'.nodes n).rightChild ≠ some n →
    (t'.nodes n).leftChild ≠ some x → (t'.nodes n).rightChild ≠ some x → Settled t' n
  upper : (t'.nodes x).leftChild ≠ some x → (t'.nodes x).rightChild ≠ some x → Settled t' x

theorem updateDepths_redepthed {u : ASTree} (hnx : n ≠ x)
    (hdepth : ∀ i, (u.nodes i).depth = (t.nodes i).depth)
    (hkind : ∀ i, kind (u.nodes i) = kind (t.nodes i)) :
    Redepthed t ((u.updateDepth n).updateDepth x) n x := by
  have hlinks (i : ℕ) := updateDepth_links u n i
  have hlinks' (i : ℕ) := updateDepth_links (u.updateDepth n) x i
  refine ⟨fun i hn hx ↦ ?_, fun i ↦ ?_, fun h₁ h₂ h₃ h₄ ↦ ?_, fun h₁ h₂ ↦ ?_⟩
  · rw [updateDepth_depth, if_neg hx, updateDepth_depth, if_neg hn, hdepth]
  · rw [← hkind]
    simp only [ASTree.updateDepth, modify_nodes]
    split_ifs <;> rfl
  · simp only [hlinks, hlinks'] at h₁ h₂ h₃ h₄
    refine (updateDepth_settled h₁ h₂).updateDepth hnx ?_ ?_
    · rwa [(hlinks n).1]
    · rwa [(hlinks n).2.1]
  · simp only [hlinks, hlinks'] at h₁ h₂
    refine updateDepth_settled ?_ ?_
    · rwa [(hlinks x).1]
    · rwa [(hlinks x).2.1]

theorem relinked_keeps {α : Type} (f : ASTNode → α)
    (hl : ∀ n q, f { n with leftChild := q } = f n) (hr : ∀ n q, f { n with rightChild := q } = f n)
    {g₁ g₂ g₃ g₄ : ASTNode → ASTNode} (h₁ : ∀ n, f (g₁ n) = f n) (h₂ : ∀ n, f (g₂ n) = f n)
    (h₃ : ∀ n, f (g₃ n) = f n) (h₄ : ∀ n, f (g₄ n) = f n) (t : ASTree) (q : Option ℕ) (x n i : ℕ) :
    f ((((((t.modify x g₁).modify n g₂).modify x g₃).notifyParent q x n).modify n g₄).nodes i) =
      f (t.nodes i) := by
  rw [modify_keeps f h₄, notifyParent_keeps f hl hr, modify_keeps f h₃, modify_keeps f h₂,
    modify_keeps f h₁]

theorem rightRotate_redepthed {t' : ASTree} (hnx : n ≠ x) (hrun : t.rightRotate n = .ok (t', x)) :
    Redepthed t t' n x := by
  rw [ASTree.rightRotate] at hrun
  split at hrun
  · cases hrun
  next y hy =>
    obtain ⟨rfl, rfl⟩ := Prod.ext_iff.mp (Except.ok.inj hrun)
    refine updateDepths_redepthed hnx (fun i ↦ ?_) fun i ↦ ?_
    · refine relinked_keeps ASTNode.depth (fun _ _ ↦ rfl) (fun _ _ ↦ rfl) ?_ ?_ ?_ ?_ t _ y n i
      all_goals exact fun _ ↦ rfl
    · refine relinked_keeps kind (fun _ _ ↦ rfl) (fun _ _ ↦ rfl) ?_ ?_ ?_ ?_ t _ y n i
      all_goals exact fun _ ↦ rfl

theorem leftRotate_redepthed {t' : ASTree} (hnx : n ≠ x) (hrun : t.leftRotate n = .ok (t', x)) :
    Redepthed t t' n x := by
  rw [ASTree.leftRotate] at hrun
  split at hrun
  · cases hrun
  next y hy =>
    obtain ⟨rfl, rfl⟩ := Prod.ext_iff.mp (Except.ok.inj hrun)
    refine updateDepths_redepthed hnx (fun i ↦ ?_) fun i ↦ ?_
    · refine relinked_keeps ASTNode.depth (fun _ _ ↦ rfl) (fun _ _ ↦ rfl) ?_ ?_ ?_ ?_ t _ y n i
      all_goals exact fun _ ↦ rfl
    · refine relinked_keeps kind (fun _ _ ↦ rfl) (fun _ _ ↦ rfl) ?_ ?_ ?_ ?_ t _ y n i
      all_goals exact fun _ ↦ rfl

section Cached

variable {t' : ASTree} {a b r : Tree ℕ Op ℤ}

theorem cached_of_settled {i : ℕ} {l r : Tree ℕ Op ℤ} (h : Linked t.nodes (.node i .mul l r))
    (hs : Settled t i) (hl : DepthsCached t.nodes l) (hr : DepthsCached t.nodes r) :
    DepthsCached t.nodes (.node i .mul l r) := by
  refine ⟨?_, hl, hr⟩
  rw [hs, h.2.1, h.2.2.1, hl.getDepth, hr.getDepth]
  simp only [multDepth, Tree.weight, if_true]
  omega

theorem Redepthed.cached (hre : Redepthed t t' n x) {s : Tree ℕ Op ℤ}
    (h : DepthsCached t.nodes s) (hn : n ∉ s.ids) (hx : x ∉ s.ids) : DepthsCached t'.nodes s :=
  h.congr fun i hi ↦ hre.depth i (fun he ↦ hn (he ▸ hi)) fun he ↦ hx (he ▸ hi)

theorem root_ne {s : Tree ℕ Op ℤ} {i : ℕ} (h : i ∉ s.ids) : s.root ≠ some i :=
  fun he ↦ h (root_mem he)

theorem rightRotate_cached (hre : Redepthed t t' n x)
    (h : Linked t'.nodes (.node x .mul a (.node n .mul b r)))
    (hnd : (.node x .mul a (.node n .mul b r) : Tree ℕ Op ℤ).ids.Nodup) (ha : DepthsCached t.nodes a)
    (hb : DepthsCached t.nodes b) (hr : DepthsCached t.nodes r) :
    DepthsCached t'.nodes (.node x .mul a (.node n .mul b r)) := by
  simp only [Tree.ids, List.nodup_cons, List.nodup_append, List.mem_cons, List.mem_append] at hnd
  have hlower : Settled t' n := by
    obtain ⟨-, -, -, -, -, hleft, hright, -, -⟩ := h
    refine hre.lower ?_ ?_ ?_ ?_
    all_goals
      first | rw [hleft] | rw [hright]
      exact root_ne (by grind)
  have hupper : Settled t' x := by
    obtain ⟨-, hleft, hright, -, -⟩ := h
    refine hre.upper ?_ ?_
    · rw [hleft]
      exact root_ne (by grind)
    · rw [hright]
      exact root_ne (by simp only [Tree.ids]; grind)
  have ha' : DepthsCached t'.nodes a := hre.cached ha (by grind) (by grind)
  have hb' : DepthsCached t'.nodes b := hre.cached hb (by grind) (by grind)
  have hr' : DepthsCached t'.nodes r := hre.cached hr (by grind) (by grind)
  exact cached_of_settled h hupper ha' (cached_of_settled h.2.2.2.2 hlower hb' hr')

theorem leftRotate_cached (hre : Redepthed t t' n x)
    (h : Linked t'.nodes (.node x .mul (.node n .mul r b) a))
    (hnd : (.node x .mul (.node n .mul r b) a : Tree ℕ Op ℤ).ids.Nodup) (ha : DepthsCached t.nodes a)
    (hb : DepthsCached t.nodes b) (hr : DepthsCached t.nodes r) :
    DepthsCached t'.nodes (.node x .mul (.node n .mul r b) a) := by
  simp only [Tree.ids, List.nodup_cons, List.nodup_append, List.mem_cons, List.mem_append] at hnd
  have hlower : Settled t' n := by
    obtain ⟨-, -, -, ⟨-, hleft, hright, -, -⟩, -⟩ := h
    refine hre.lower ?_ ?_ ?_ ?_
    all_goals
      first | rw [hleft] | rw [hright]
      exact root_ne (by grind)
  have hupper : Settled t' x := by
    obtain ⟨-, hleft, hright, -, -⟩ := h
    refine hre.upper ?_ ?_
    · rw [hleft]
      exact root_ne (by simp only [Tree.ids]; grind)
    · rw [hright]
      exact root_ne (by grind)
  have ha' : DepthsCached t'.nodes a := hre.cached ha (by grind) (by grind)
  have hb' : DepthsCached t'.nodes b := hre.cached hb (by grind) (by grind)
  have hr' : DepthsCached t'.nodes r := hre.cached hr (by grind) (by grind)
  exact cached_of_settled h hupper (cached_of_settled h.2.2.2.1 hlower hr' hb') ha'

end Cached

/-- The depths of a subtree stay right while it changes its shape, and those of
other nodes stay as they are. -/
structure KeepsDepths (t t' : ASTree) (s s' : Tree ℕ Op ℤ) : Prop where
  cached : DepthsCached t.nodes s → DepthsCached t'.nodes s'
  depth : ∀ i, i ∉ s.ids → (t'.nodes i).depth = (t.nodes i).depth
  kind : ∀ i, kind (t'.nodes i) = kind (t.nodes i)

section Keeps

variable {t' : ASTree} {c : Context ℕ Op ℤ} {a b d r : Tree ℕ Op ℤ} {y : ℕ}

theorem Redepthed.depth_of_mem {s : Tree ℕ Op ℤ} (h : Redepthed t t' n x) (hn : n ∈ s.ids)
    (hx : x ∈ s.ids) {i : ℕ} (hi : i ∉ s.ids) : (t'.nodes i).depth = (t.nodes i).depth :=
  h.depth i (fun he ↦ hi (he ▸ hn)) fun he ↦ hi (he ▸ hx)

theorem rightRotate_keeps (h : Linked t'.nodes (.node x .mul a (.node n .mul b r)))
    (hnd : (.node x .mul a (.node n .mul b r) : Tree ℕ Op ℤ).ids.Nodup) (hre : Redepthed t t' n x) :
    KeepsDepths t t' (.node n .mul (.node x .mul a b) r) (.node x .mul a (.node n .mul b r)) where
  cached := fun ⟨_, ⟨_, ha, hb⟩, hr⟩ ↦ rightRotate_cached hre h hnd ha hb hr
  depth i := hre.depth_of_mem (by simp [Tree.ids]) (by simp [Tree.ids])
  kind := hre.kind

theorem leftRotate_keeps (h : Linked t'.nodes (.node x .mul (.node n .mul r b) a))
    (hnd : (.node x .mul (.node n .mul r b) a : Tree ℕ Op ℤ).ids.Nodup) (hre : Redepthed t t' n x) :
    KeepsDepths t t' (.node n .mul r (.node x .mul b a)) (.node x .mul (.node n .mul r b) a) where
  cached := fun ⟨_, hr, ⟨_, hb, ha⟩⟩ ↦ leftRotate_cached hre h hnd ha hb hr
  depth i := hre.depth_of_mem (by simp [Tree.ids]) (by simp [Tree.ids])
  kind := hre.kind

section Twice

variable {u t₁ : ASTree} (hu : ∀ i, (u.nodes i).depth = (t₁.nodes i).depth ∧
  kind (u.nodes i) = kind (t₁.nodes i))
include hu

theorem keepsDepths_twice {s s' T T' : Tree ℕ Op ℤ} (hk : KeepsDepths t t₁ s s')
    (hre : Redepthed u t' n x) (hsub : s.ids ⊆ T.ids) (hn : n ∈ T.ids) (hx : x ∈ T.ids)
    (hcached : DepthsCached t.nodes T → DepthsCached t'.nodes T') : KeepsDepths t t' T T' := by
  refine ⟨hcached, fun i hi ↦ ?_, fun i ↦ ?_⟩
  · rw [hre.depth_of_mem hn hx hi, (hu i).1, hk.depth i fun hmem ↦ hi (hsub hmem)]
  · rw [hre.kind, (hu i).2, hk.kind]

theorem leftRight_keeps
    (hk : KeepsDepths t t₁ (.node y .mul a (.node x .mul b d)) (.node x .mul (.node y .mul a b) d))
    (hre : Redepthed u t' n x)
    (h : Linked t'.nodes (.node x .mul (.node y .mul a b) (.node n .mul d r)))
    (hnd : (.node x .mul (.node y .mul a b) (.node n .mul d r) : Tree ℕ Op ℤ).ids.Nodup) :
    KeepsDepths t t' (.node n .mul (.node y .mul a (.node x .mul b d)) r)
      (.node x .mul (.node y .mul a b) (.node n .mul d r)) := by
  refine keepsDepths_twice hu hk hre (fun i hi ↦ ?_) (by simp [Tree.ids]) (by simp [Tree.ids])
    fun hcached ↦ ?_
  · exact List.mem_cons_of_mem _ (List.mem_append_left _ hi)
  · obtain ⟨-, hy, hr⟩ := hcached
    obtain ⟨-, hya, hd⟩ := (hk.cached hy).congr fun i _ ↦ (hu i).1
    have hr' : DepthsCached u.nodes r := hr.congr fun i hi ↦ by
      have hout : i ∉ (.node y .mul a (.node x .mul b d) : Tree ℕ Op ℤ).ids := by
        intro hmem
        simp only [Tree.ids, List.nodup_cons, List.nodup_append, List.mem_cons,
          List.mem_append] at hnd hmem
        grind
      rw [(hu i).1, hk.depth i hout]
    exact rightRotate_cached hre h hnd hya hd hr'

theorem rightLeft_keeps
    (hk : KeepsDepths t t₁ (.node y .mul (.node x .mul a b) d) (.node x .mul a (.node y .mul b d)))
    (hre : Redepthed u t' n x)
    (h : Linked t'.nodes (.node x .mul (.node n .mul r a) (.node y .mul b d)))
    (hnd : (.node x .mul (.node n .mul r a) (.node y .mul b d) : Tree ℕ Op ℤ).ids.Nodup) :
    KeepsDepths t t' (.node n .mul r (.node y .mul (.node x .mul a b) d))
      (.node x .mul (.node n .mul r a) (.node y .mul b d)) := by
  refine keepsDepths_twice hu hk hre (fun i hi ↦ ?_) (by simp [Tree.ids]) (by simp [Tree.ids])
    fun hcached ↦ ?_
  · exact List.mem_cons_of_mem _ (List.mem_append_right _ hi)
  · obtain ⟨-, hr, hy⟩ := hcached
    obtain ⟨-, ha, hyd⟩ := (hk.cached hy).congr fun i _ ↦ (hu i).1
    have hr' : DepthsCached u.nodes r := hr.congr fun i hi ↦ by
      have hout : i ∉ (.node y .mul (.node x .mul a b) d : Tree ℕ Op ℤ).ids := by
        intro hmem
        simp only [Tree.ids, List.nodup_cons, List.nodup_append, List.mem_cons,
          List.mem_append] at hnd hmem
        grind
      rw [(hu i).1, hk.depth i hout]
    exact leftRotate_cached hre h hnd hyd ha hr'

end Twice

end Keeps

end Depths

section Visit

variable {c : Context ℕ Op ℤ} {s : Tree ℕ Op ℤ}

theorem canRotateRight_shape (h : Linked t.nodes s) (hs : s.root = some n)
    (hr : t.canRotateRight n = true) :
    ∃ x a b r, s = .node n .mul (.node x .mul a b) r := by
  simp only [ASTree.canRotateRight, Bool.and_eq_true] at hr
  obtain ⟨i, l, r, rfl⟩ := h.product (hs ▸ hr.2)
  obtain rfl : i = n := Option.some.inj hs
  obtain ⟨x, a, b, rfl⟩ := h.2.2.2.1.product (h.2.1 ▸ hr.1)
  exact ⟨x, a, b, r, rfl⟩

theorem canRotateLeft_shape (h : Linked t.nodes s) (hs : s.root = some n)
    (hr : t.canRotateLeft n = true) :
    ∃ x a b r, s = .node n .mul r (.node x .mul a b) := by
  simp only [ASTree.canRotateLeft, Bool.and_eq_true] at hr
  obtain ⟨i, l, r, rfl⟩ := h.product (hs ▸ hr.2)
  obtain rfl : i = n := Option.some.inj hs
  obtain ⟨x, a, b, rfl⟩ := h.2.2.2.2.product (h.2.2.1 ▸ hr.1)
  exact ⟨x, a, b, l, rfl⟩

theorem rotate_spec {rot : ASTree.Rotation} (h : Rep t (c.plug s)) (hs : s.root = some n)
    (hp : (t.nodes n).parent = owner c) (hr : t.chooseRotation n = some rot) :
    ∃ t' s' x, t.rotate n rot = .ok (t', x) ∧ Rep t' (c.plug s') ∧ s'.root = some x ∧
      (c.plug s).Reshaped .mul (c.plug s') ∧ t'.nodeCounter = t.nodeCounter ∧
      (t.nodeStack ≠ [] → t'.nodeStack ≠ []) ∧ KeepsDepths t t' s s' := by
  obtain ⟨hl, -⟩ := (linked_plug ..).mp h.linked
  have hnd := ((nodup_plug s).mp h.nodup).of_append_left
  have hparts {t' : ASTree} {s' : Tree ℕ Op ℤ} (h' : Rep t' (c.plug s')) :
      Linked t'.nodes s' ∧ s'.ids.Nodup :=
    ⟨((linked_plug ..).mp h'.linked).1, ((nodup_plug s').mp h'.nodup).of_append_left⟩
  simp only [ASTree.chooseRotation] at hr
  split_ifs at hr with h₁ h₂ h₃ h₄
  all_goals obtain rfl := Option.some.inj hr
  · obtain ⟨x, a, b, r, rfl⟩ := canRotateRight_shape hl hs h₁.1
    obtain ⟨t', hrun, hrot, hrep⟩ := rightRotate_rep h hp
    have hnx : n ≠ x := by
      simp only [Tree.ids, List.nodup_cons, List.mem_append, List.mem_cons] at hnd
      grind
    exact ⟨t', _, x, hrun, hrep, rfl, .right c n x a b r (.refl _), hrot.nodeCounter,
      hrot.nodeStack ▸ id, rightRotate_keeps (hparts hrep).1 (hparts hrep).2
        (rightRotate_redepthed hnx hrun)⟩
  · obtain ⟨x, a, b, r, rfl⟩ := canRotateLeft_shape hl hs h₂.1
    obtain ⟨t', hrun, hrot, hrep⟩ := leftRotate_rep h hp
    have hnx : n ≠ x := by
      simp only [Tree.ids, List.nodup_cons, List.mem_append, List.mem_cons] at hnd
      grind
    exact ⟨t', _, x, hrun, hrep, rfl, .left c x n r a b (.refl _), hrot.nodeCounter,
      hrot.nodeStack ▸ id, leftRotate_keeps (hparts hrep).1 (hparts hrep).2
        (leftRotate_redepthed hnx hrun)⟩
  · obtain ⟨y, l, d, r, rfl⟩ := canRotateRight_shape hl hs h₃.1
    have hy : (t.nodes n).leftChild = some y := hl.2.1
    rw [hy, Option.any_some] at h₃
    obtain ⟨x, a, b, r', he⟩ := canRotateLeft_shape hl.2.2.2.1 rfl h₃.2.2.2
    obtain ⟨-, -, rfl, rfl⟩ := Tree.node.inj he
    have h' : Rep { t with nodeStack := n :: t.nodeStack } ((Context.left n .mul c r).plug
        (.node y .mul l (.node x .mul a b))) := ⟨h.linked, h.nodup, h.bounded, h.fresh⟩
    obtain ⟨t₁, hrun₁, hrot₁, hl₁, hrep₁⟩ := leftRotate_below h'
    have hnd₁ := ((nodup_plug _).mp hrep₁.nodup).of_append_left
    simp only [Tree.ids, List.nodup_cons, List.mem_append, List.mem_cons] at hnd
    have hny : n ≠ y := by grind
    have hnx : n ≠ x := by grind
    have hyx : y ≠ x := by grind
    have hp₁ : ((t₁.modify n fun m ↦ { m with leftChild := some x }).nodes n).parent = owner c := by
      simp [modify_nodes, hrot₁.parent, hny, hnx, hp]
    obtain ⟨t₂, hrun₂, hrot₂, hrep₂⟩ :=
      rightRotate_rep (c := c) (n := n) (x := x) (r := r) (by exact hrep₁) hp₁
    refine ⟨t₂, _, x, ?_, hrep₂, rfl, ?_, ?_, fun _ ↦ ?_, ?_⟩
    · simp [ASTree.rotate, hy, bind, Except.bind, hrun₁, hrun₂]
    · exact .right c n x _ b r (.left (.left n .mul c r) x y l a b (.refl _))
    · exact hrot₂.nodeCounter.trans hrot₁.nodeCounter
    · exact ne_of_eq_of_ne (hrot₂.nodeStack.trans hrot₁.nodeStack) (List.cons_ne_nil _ _)
    · obtain ⟨hcached, hdepth, hkind⟩ :=
        leftRotate_keeps hl₁ hnd₁ (leftRotate_redepthed hyx hrun₁)
      refine leftRight_keeps (fun i ↦ ?_) ⟨hcached, hdepth, hkind⟩
        (rightRotate_redepthed hnx hrun₂) (hparts hrep₂).1 (hparts hrep₂).2
      refine ⟨modify_keeps ASTNode.depth ?_ _ _ _, modify_keeps kind ?_ _ _ _⟩
      · exact fun _ ↦ rfl
      · exact fun _ ↦ rfl
  · obtain ⟨y, l, d, r, rfl⟩ := canRotateLeft_shape hl hs h₄.1
    have hy : (t.nodes n).rightChild = some y := hl.2.2.1
    rw [hy, Option.any_some] at h₄
    obtain ⟨x, a, b, r', he⟩ := canRotateRight_shape hl.2.2.2.2 rfl h₄.2.2.2
    obtain ⟨-, -, rfl, rfl⟩ := Tree.node.inj he
    have h' : Rep { t with nodeStack := y :: t.nodeStack } ((Context.right n .mul r c).plug
        (.node y .mul (.node x .mul a b) d)) := ⟨h.linked, h.nodup, h.bounded, h.fresh⟩
    obtain ⟨t₁, hrun₁, hrot₁, hl₁, hrep₁⟩ := rightRotate_below h'
    have hnd₁ := ((nodup_plug _).mp hrep₁.nodup).of_append_left
    simp only [Tree.ids, List.nodup_cons, List.mem_append, List.mem_cons] at hnd
    have hny : n ≠ y := by grind
    have hnx : n ≠ x := by grind
    have hyx : y ≠ x := by grind
    have hp₁ : ((t₁.modify n fun m ↦ { m with rightChild := some x }).nodes n).parent = owner c := by
      simp [modify_nodes, hrot₁.parent, hny, hnx, hp]
    obtain ⟨t₂, hrun₂, hrot₂, hrep₂⟩ :=
      leftRotate_rep (c := c) (n := n) (x := x) (r := r) (by exact hrep₁) hp₁
    refine ⟨t₂, _, x, ?_, hrep₂, rfl, ?_, ?_, fun _ ↦ ?_, ?_⟩
    · simp [ASTree.rotate, hy, bind, Except.bind, hrun₁, hrun₂]
    · exact .left c x n r a _ (.right (.right n .mul r c) y x a b d (.refl _))
    · exact hrot₂.nodeCounter.trans hrot₁.nodeCounter
    · exact ne_of_eq_of_ne (hrot₂.nodeStack.trans hrot₁.nodeStack) (List.cons_ne_nil _ _)
    · obtain ⟨hcached, hdepth, hkind⟩ :=
        rightRotate_keeps hl₁ hnd₁ (rightRotate_redepthed hyx hrun₁)
      refine rightLeft_keeps (fun i ↦ ?_) ⟨hcached, hdepth, hkind⟩
        (leftRotate_redepthed hnx hrun₂) (hparts hrep₂).1 (hparts hrep₂).2
      refine ⟨modify_keeps ASTNode.depth ?_ _ _ _, modify_keeps kind ?_ _ _ _⟩
      · exact fun _ ↦ rfl
      · exact fun _ ↦ rfl

theorem refreshDepth_same (i : ℕ) :
    SameLabel (t.nodes i) ((t.refreshDepth n).nodes i) ∧
      ((t.refreshDepth n).nodes i).leftChild = (t.nodes i).leftChild ∧
      ((t.refreshDepth n).nodes i).rightChild = (t.nodes i).rightChild ∧
      ((t.refreshDepth n).nodes i).parent = (t.nodes i).parent := by
  simp only [ASTree.refreshDepth, ASTree.updateDepth]
  split_ifs <;> simp only [modify_nodes] <;> split_ifs <;>
    exact ⟨⟨rfl, rfl, rfl⟩, rfl, rfl, rfl⟩

theorem refreshDepth_frame : (t.refreshDepth n).nodeCounter = t.nodeCounter ∧
    (t.refreshDepth n).nodeStack = t.nodeStack := by
  simp only [ASTree.refreshDepth]
  split_ifs <;> exact ⟨rfl, rfl⟩

theorem reorgVisit_spec (h : Rep t (c.plug s)) (hs : s.root = some n)
    (hp : t.rotationAt n ≠ none → parentCurrent t n = true) :
    ∃ t' s' x, t.reorgVisit n = .ok (t', x) ∧ Rep t' (c.plug s') ∧ s'.root = some x ∧
      (c.plug s).Reshaped .mul (c.plug s') ∧ t'.nodeCounter = t.nodeCounter ∧
      (t.nodeStack ≠ [] → t'.nodeStack ≠ []) ∧ KeepsDepths (t.refreshDepth n) t' s s' := by
  have h' : Rep (t.refreshDepth n) (c.plug s) :=
    h.congr (fun i ↦ ⟨(refreshDepth_same i).1, (refreshDepth_same i).2.1,
      (refreshDepth_same i).2.2.1⟩) (fun i ↦ (refreshDepth_same i).2.2.2) refreshDepth_frame.1
  rw [ASTree.reorgVisit]
  cases hr : t.rotationAt n with
  | none =>
    exact ⟨_, s, n, rfl, h', hs, .refl _, refreshDepth_frame.1, fun he ↦
      refreshDepth_frame.2.symm ▸ he, id, fun _ _ ↦ rfl, fun _ ↦ rfl⟩
  | some rot =>
    have hpar : ((t.refreshDepth n).nodes n).parent = owner c := by
      rw [(refreshDepth_same n).2.2.2]
      exact h.parent_eq_owner hs (hp (by simp [hr]))
    have hchoose : (t.refreshDepth n).chooseRotation n = some rot := by
      rw [ASTree.rotationAt] at hr
      split_ifs at hr
      exact hr
    obtain ⟨t', s', x, hrun, hrep, hx, hres, hcount, hstack, hkeeps⟩ :=
      rotate_spec h' hs hpar hchoose
    exact ⟨t', s', x, hrun, hrep, hx, hres, hcount.trans refreshDepth_frame.1, fun he ↦
      hstack (refreshDepth_frame.2.symm ▸ he), hkeeps⟩

/-- Every node that `reorg_from` rotates on its way up is, at that moment, a
child of the node its `parent` names. -/
def rotationsCurrent : ℕ → ASTree → ℕ → Bool
  | 0, _, _ => true
  | fuel + 1, t, node =>
    ((t.rotationAt node).isNone || parentCurrent t node) &&
      match t.reorgVisit node with
      | .error _ => true
      | .ok (t, curr) =>
        match (t.nodes curr).parent with
        | some p => rotationsCurrent fuel t p
        | none => true

/-- The climb of `reorg_from` follows stale parent links, but each link leads to
a proper ancestor, so the climb ends at the root of the tree. -/
theorem reorgFrom_spec {fuel : ℕ} (h : Rep t (c.plug s)) (hs : s.root = some n)
    (hfuel : c.depth < fuel) (hp : rotationsCurrent fuel t n = true) :
    ∃ t' T x, ASTree.reorgFrom fuel t n = .ok (t', x) ∧ Rep t' T ∧ T.root = some x ∧
      (c.plug s).Reshaped .mul T ∧ t'.nodeCounter = t.nodeCounter ∧
      (t.nodeStack ≠ [] → t'.nodeStack ≠ []) := by
  induction fuel generalizing t c s n with
  | zero => omega
  | succ fuel ih =>
    simp only [rotationsCurrent, Bool.and_eq_true] at hp
    obtain ⟨t₁, s₁, x, hrun, hrep, hx, hres, hcount, hstack, -⟩ :=
      reorgVisit_spec h hs (fun hr ↦ by simpa [Option.isNone_iff_eq_none, hr] using hp.1)
    rw [hrun] at hp
    simp only [ASTree.reorgFrom, hrun, bind, Except.bind]
    cases hpar : (t₁.nodes x).parent with
    | none =>
      obtain ⟨hlo, hhi⟩ := (hrep.parent_link hx).2 hpar
      have htop : c = .top := by cases c <;> simp_all [Context.lo, Context.hi]
      subst htop
      exact ⟨t₁, s₁, x, rfl, hrep, hx, hres, hcount, hstack⟩
    | some p =>
      have hnb : c.lo = some p ∨ c.hi = some p :=
        (hrep.parent_link hx).1.imp (fun h ↦ h.symm.trans hpar) (fun h ↦ h.symm.trans hpar)
      obtain ⟨d, o, l, r, he, hd⟩ := Context.ancestor hnb s₁
      simp only [hpar] at hp
      obtain ⟨t₂, T, y, hrun₂, hrep₂, hy, hres₂, hcount₂, hstack₂⟩ :=
        ih (he ▸ hrep) rfl (by omega) hp.2
      exact ⟨t₂, T, y, hrun₂, hrep₂, hy, hres.trans (he ▸ hres₂), hcount₂.trans hcount,
        hstack₂ ∘ hstack⟩

end Visit

end FheBlockchain.Computer.AstRotation
