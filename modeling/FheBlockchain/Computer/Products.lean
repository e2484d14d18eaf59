import FheBlockchain.Computer.AstDepth
import FheBlockchain.Computer.PublicInputs
import FheBlockchain.Computer.Shunting
import Mathlib.Data.Nat.Log

namespace FheBlockchain.Computer.Products

open Ast AstMemory AstRotation AstMeaning AstBuild AstDepth Expressions Proving
open PublicInputs Shunting Library.HoleTree Library.Results

section Shapes

/-- A tree of products with every level full. What is below the last level may
still be missing. -/
def Perfect : ℕ → Tree ℕ Op ℤ → Prop
  | 0, .hole | 0, .leaf _ _ => True
  | 0, .node _ _ _ _ | _ + 1, .hole | _ + 1, .leaf _ _ => False
  | k + 1, .node _ o l r => o = .mul ∧ Perfect k l ∧ Perfect k r

/-- The tree of a product that is read from its last factor on. It grows at its
left end, below `n`, whose right child is `q`. A left child may be one level deeper
than its sibling. -/
inductive Spine (n : ℕ) (q : Tree ℕ Op ℤ) : ℕ → Tree ℕ Op ℤ → Prop
  | bottom (hq : Perfect 0 q) : Spine n q 0 (.node n .mul .hole q)
  | level {k i : ℕ} {l r : Tree ℕ Op ℤ} (hl : Spine n q k l) (hr : Perfect (k + 1) r) :
    Spine n q (k + 1) (.node i .mul l r)
  | short {k i : ℕ} {l r : Tree ℕ Op ℤ} (hl : Spine n q k l) (hr : Perfect k r) :
    Spine n q (k + 1) (.node i .mul l r)

inductive Grown (n : ℕ) (q : Tree ℕ Op ℤ) : ℕ → Tree ℕ Op ℤ → Prop
  | bottom (hq : Perfect 0 q) : Grown n q 0 (.node n .mul .hole q)
  | short {k i : ℕ} {l r : Tree ℕ Op ℤ} (hl : Spine n q k l) (hr : Perfect k r) :
    Grown n q (k + 1) (.node i .mul l r)

def Above : ℕ → Context ℕ Op ℤ → Prop
  | _, .top => True
  | k, .left _ o c r => o = .mul ∧ (Perfect k r ∨ ∃ j, k = j + 1 ∧ Perfect j r) ∧ Above (k + 1) c
  | _, .right _ _ _ _ => False

variable {n k : ℕ} {q s : Tree ℕ Op ℤ} {c d : Context ℕ Op ℤ}

def OnlyProducts : Tree ℕ Op ℤ → Prop
  | .hole | .leaf _ _ => True
  | .node _ o l r => o = .mul ∧ OnlyProducts l ∧ OnlyProducts r

theorem OnlyProducts.clog_le (h : OnlyProducts s) (hs : s.holes = 0) :
    Nat.clog 2 s.labels.length ≤ multDepth s := by
  refine Nat.clog_le_of_le_pow ?_
  induction s with
  | hole => cases hs
  | leaf i v => exact Nat.le_refl 1
  | node i o l r ihl ihr =>
    obtain ⟨rfl, hl, hr⟩ := h
    simp only [Tree.holes, Nat.add_eq_zero_iff] at hs
    have hle := ihl hl hs.1
    have hre := ihr hr hs.2
    simp only [multDepth, Tree.weight, if_true, Tree.labels, List.length_append] at hle hre ⊢
    calc l.labels.length + r.labels.length
        ≤ 2 ^ max (l.weight _) (r.weight _) + 2 ^ max (l.weight _) (r.weight _) :=
          Nat.add_le_add
            (hle.trans (Nat.pow_le_pow_right Nat.two_pos (Nat.le_max_left _ _)))
            (hre.trans (Nat.pow_le_pow_right Nat.two_pos (Nat.le_max_right _ _)))
      _ = 2 ^ (1 + max (l.weight _) (r.weight _)) := by rw [Nat.add_comm 1, pow_succ, Nat.mul_two]

theorem OnlyProducts.eval {R : Type} [Ring R] {e : Expr} (ρ : ℤ → R) (h : OnlyProducts s)
    (he : toExpr? s = some e) : e.eval ρ = (s.labels.map ρ).prod := by
  induction s generalizing e with
  | hole => cases he
  | leaf i v =>
    obtain rfl := Option.some.inj he
    exact (mul_one (ρ v)).symm
  | node i o l r ihl ihr =>
    obtain ⟨rfl, hl, hr⟩ := h
    simp only [toExpr?, Option.bind_eq_bind, Option.bind_eq_some_iff] at he
    obtain ⟨el, hel, er, her, he⟩ := he
    obtain rfl := Option.some.inj he
    rw [Expr.eval, applyOp, ihl hl hel, ihr hr her, Tree.labels, List.map_append, List.prod_append]

theorem OnlyProducts.replace {s' : Tree ℕ Op ℤ} (h : OnlyProducts (c.plug s))
    (hs : OnlyProducts s → OnlyProducts s') : OnlyProducts (c.plug s') := by
  induction c generalizing s s' with
  | top => exact hs h
  | left i o c r ih => exact ih h fun ⟨ho, hl, hr⟩ ↦ ⟨ho, hs hl, hr⟩
  | right i o l c ih => exact ih h fun ⟨ho, hl, hr⟩ ↦ ⟨ho, hl, hs hr⟩

theorem Perfect.onlyProducts (h : Perfect k s) : OnlyProducts s := by
  induction s generalizing k with
  | hole | leaf i v => trivial
  | node i o l r ihl ihr =>
    cases k with
    | zero => exact h.elim
    | succ k => exact ⟨h.1, ihl h.2.1, ihr h.2.2⟩

theorem Spine.onlyProducts (h : Spine n q k s) : OnlyProducts s := by
  induction h with
  | bottom hq => exact ⟨rfl, trivial, hq.onlyProducts⟩
  | level hl hr ih | short hl hr ih => exact ⟨rfl, ih, hr.onlyProducts⟩

theorem Grown.spine (h : Grown n q k s) : Spine n q k s := by
  cases h with
  | bottom hq => exact .bottom hq
  | short hl hr => exact .short hl hr

theorem Perfect.depth (h : Perfect k s) : multDepth s = k := by
  induction s generalizing k with
  | hole | leaf i v =>
    cases k with
    | zero => rfl
    | succ k => exact h.elim
  | node i o l r ihl ihr =>
    cases k with
    | zero => exact h.elim
    | succ k =>
      obtain ⟨rfl, hl, hr⟩ := h
      have hdl := ihl hl
      have hdr := ihr hr
      simp only [multDepth, Tree.weight, if_true] at hdl hdr ⊢
      omega

theorem Perfect.size (h : Perfect k s) : s.size + 1 = 2 ^ k := by
  induction s generalizing k with
  | hole | leaf i v =>
    cases k with
    | zero => rfl
    | succ k => exact h.elim
  | node i o l r ihl ihr =>
    cases k with
    | zero => exact h.elim
    | succ k =>
      have hsl := ihl h.2.1
      have hsr := ihr h.2.2
      simp only [Tree.size, pow_succ]
      omega

theorem Spine.depth (h : Spine n q k s) : multDepth s = k + 1 := by
  induction h with
  | bottom hq =>
    have hd := hq.depth
    simp only [multDepth, Tree.weight, if_true] at hd ⊢
    omega
  | level hl hr ih | short hl hr ih =>
    have hd := hr.depth
    simp only [multDepth, Tree.weight, if_true] at hd ih ⊢
    omega

theorem Spine.root (h : Spine n q k s) : ∃ i, s.root = some i := by
  cases h with
  | bottom => exact ⟨n, rfl⟩
  | @level k i | @short k i => exact ⟨i, rfl⟩

theorem Spine.size (h : Spine n q k s) : 2 ^ k ≤ s.size ∧ s.size < 2 ^ (k + 1) := by
  induction h with
  | bottom hq =>
    have hs := hq.size
    simp only [Tree.size] at hs ⊢
    omega
  | level hl hr ih | short hl hr ih =>
    have hs := hr.size
    simp only [Tree.size, pow_succ] at hs ih ⊢
    omega

theorem Spine.plug (h : Spine n q k s) (hc : Above (k + 1) c) :
    Spine n q (k + c.depth) (c.plug s) := by
  induction c generalizing k s with
  | top => exact h
  | left i o c r ih =>
    obtain ⟨rfl, hr, hc⟩ := hc
    rw [Context.depth, ← Nat.add_assoc, Nat.add_right_comm]
    rcases hr with hr | ⟨j, hj, hr⟩
    · exact ih (.level h hr) hc
    · obtain rfl := Nat.succ.inj hj
      exact ih (.short h hr) hc
  | right i o l c => exact hc.elim

theorem Above.append (hc : Above k c) (hd : Above (k + c.depth) d) : Above k (c.append d) := by
  induction c generalizing k with
  | top => exact hd
  | left i o c r ih =>
    refine ⟨hc.1, hc.2.1, ih hc.2.2 ?_⟩
    rwa [Context.depth, ← Nat.add_assoc, Nat.add_right_comm] at hd
  | right i o l c => exact hc.elim

theorem depth_append (c d : Context ℕ Op ℤ) : (c.append d).depth = c.depth + d.depth := by
  induction c with
  | top => exact (Nat.zero_add _).symm
  | left i o c r ih | right i o l c ih =>
    simp only [Context.append, Context.depth, ih]
    omega

theorem Spine.position (h : Spine n q k s) :
    ∃ c, s = c.plug (.node n .mul .hole q) ∧ Perfect 0 q ∧ Above 1 c ∧ c.depth = k := by
  induction h with
  | bottom hq => exact ⟨.top, rfl, hq, trivial, rfl⟩
  | @level k i l r hl hr ih =>
    obtain ⟨c, rfl, hq, hc, rfl⟩ := ih
    refine ⟨c.append (.left i .mul .top r), (c.plug_append (.left i .mul .top r) _).symm, hq,
      hc.append ⟨rfl, .inl (Nat.add_comm _ _ ▸ hr), trivial⟩, depth_append ..⟩
  | @short k i l r hl hr ih =>
    obtain ⟨c, rfl, hq, hc, rfl⟩ := ih
    refine ⟨c.append (.left i .mul .top r), (c.plug_append (.left i .mul .top r) _).symm, hq,
      hc.append ⟨rfl, .inr ⟨_, Nat.add_comm _ _, hr⟩, trivial⟩, depth_append ..⟩

end Shapes

section Climbing

def Hooked (nodes : ℕ → ASTNode) : Option ℕ → Tree ℕ Op ℤ → Prop
  | p, .node i _ l _ => (nodes i).parent = p ∧ Hooked nodes (some i) l
  | _, .hole | _, .leaf _ _ => True

def HookedAbove (nodes : ℕ → ASTNode) : Context ℕ Op ℤ → Prop
  | .top => True
  | .left i _ c _ => (nodes i).parent = owner c ∧ HookedAbove nodes c
  | .right _ _ _ _ => False

/-- A subtree at the left end that `reorg_from` has done with, in a tree it has
still to climb. -/
structure Standing (t : ASTree) (c : Context ℕ Op ℤ) (s : Tree ℕ Op ℤ) : Prop where
  rep : Rep t (c.plug s)
  marked : Marked t
  cached : DepthsCached t.nodes s
  beside : CachedBeside t.nodes c
  hooked : Hooked t.nodes (owner c) s
  above : HookedAbove t.nodes c

variable {nodes nodes' : ℕ → ASTNode} {t t' : ASTree} {c : Context ℕ Op ℤ} {i x n k fuel : ℕ}
variable {a b q r s : Tree ℕ Op ℤ} {p : Option ℕ}

theorem Hooked.congr (h : Hooked nodes p s)
    (he : ∀ i ∈ s.ids, (nodes' i).parent = (nodes i).parent) : Hooked nodes' p s := by
  induction s generalizing p with
  | hole | leaf i v => trivial
  | node i o l r ihl ihr =>
    refine ⟨(he i List.mem_cons_self).trans h.1, ihl h.2 fun j hj ↦ he j ?_⟩
    exact List.mem_cons_of_mem _ (List.mem_append_left _ hj)

theorem HookedAbove.congr (h : HookedAbove nodes c)
    (he : ∀ i ∈ c.ids, (nodes' i).parent = (nodes i).parent) : HookedAbove nodes' c := by
  induction c with
  | top => trivial
  | left i o c r ih =>
    refine ⟨(he i List.mem_cons_self).trans h.1, ih h.2 fun j hj ↦ he j ?_⟩
    exact List.mem_cons_of_mem _ (List.mem_append_right _ hj)
  | right i o l c => exact h.elim

theorem refreshDepth_rep {T : Tree ℕ Op ℤ} (h : Rep t T) : Rep (t.refreshDepth n) T := by
  refine h.congr (fun i ↦ ?_) (fun i ↦ (refreshDepth_same i).2.2.2) refreshDepth_frame.1
  obtain ⟨hlabel, hleft, hright, -⟩ := @refreshDepth_same t n i
  exact ⟨hlabel, hleft, hright⟩

theorem Standing.notMem (h : Standing t c s) (hi : i ∈ s.ids) : i ∉ c.ids :=
  fun hmem ↦ List.disjoint_of_nodup_append ((nodup_plug s).mp h.rep.nodup) hi hmem

theorem Standing.refresh (h : Standing t (.left i .mul c r) s) :
    Standing (t.refreshDepth i) c (.node i .mul s r) := by
  have hrep : Rep t (c.plug (.node i .mul s r)) := h.rep
  have hout : i ∉ c.ids := fun hi ↦
    List.disjoint_of_nodup_append ((nodup_plug _).mp hrep.nodup) List.mem_cons_self hi
  refine ⟨refreshDepth_rep hrep, h.marked.congr refreshDepth_kind,
    refreshDepth_cached hrep h.marked h.cached h.beside.1, h.beside.2.congr fun j hj ↦ ?_,
    ⟨(refreshDepth_same i).2.2.2.trans h.above.1, ?_⟩, ?_⟩
  · rw [refreshDepth_depth, if_neg (ne_of_mem_of_not_mem hj hout)]
  · exact h.hooked.congr fun j _ ↦ (refreshDepth_same j).2.2.2
  · exact h.above.2.congr fun j _ ↦ (refreshDepth_same j).2.2.2

theorem Standing.balance (h : Standing t c (.node i .mul s r)) :
    t.getBalance (some i) = (multDepth s : ℤ) - multDepth r := by
  obtain ⟨hl, -⟩ := (linked_plug ..).mp h.rep.linked
  rw [ASTree.getBalance, hl.2.1, hl.2.2.1, h.cached.2.1.getDepth, h.cached.2.2.getDepth]

theorem chooseRotation_none (h : t.getBalance (some i) ≤ 1) (h' : -1 ≤ t.getBalance (some i)) :
    t.chooseRotation i = none := by
  simp only [ASTree.chooseRotation]
  rw [if_neg (by omega), if_neg (by omega), if_neg (by omega), if_neg (by omega)]

theorem Standing.counts (h : Standing t (.left i .mul c r) s) :
    (t.nodes i).countsForDepth = true := by
  obtain ⟨⟨⟨-, hop⟩, -⟩, -⟩ := (linked_plug (c := c) (.node i .mul s r)).mp h.rep.linked
  rw [h.marked i, hop]
  rfl

theorem Standing.rest (h : Standing t (.left i .mul c r) s)
    (hd : multDepth r ≤ multDepth s ∧ multDepth s ≤ multDepth r + 1) :
    ∃ t', t.reorgVisit i = .ok (t', i) ∧ Standing t' c (.node i .mul s r) ∧
      t'.nodeCounter = t.nodeCounter ∧ t'.nodeStack = t.nodeStack := by
  have hbalance := h.refresh.balance
  have hnone : t.rotationAt i = none := by
    rw [ASTree.rotationAt, if_pos h.counts]
    exact chooseRotation_none (by omega) (by omega)
  refine ⟨t.refreshDepth i, ?_, h.refresh, refreshDepth_frame⟩
  rw [ASTree.reorgVisit, hnone]

theorem Standing.chosen (h : Standing t c (.node i .mul (.node x .mul a b) r))
    (hd : multDepth r + 1 < multDepth (.node x .mul a b)) (hab : multDepth b < multDepth a) :
    t.chooseRotation i = some .right := by
  obtain ⟨⟨⟨-, hop⟩, hleft, -, ⟨⟨-, hxop⟩, hxleft, hxright, -⟩, -⟩, -⟩ :=
    (linked_plug ..).mp h.rep.linked
  have hbalance := h.balance
  have hx : t.getBalance (some x) = (multDepth a : ℤ) - multDepth b := by
    rw [ASTree.getBalance, hxleft, hxright, h.cached.2.1.2.1.getDepth, h.cached.2.1.2.2.getDepth]
  simp only [ASTree.chooseRotation]
  refine if_pos ⟨?_, by omega, ?_⟩
  · simp [ASTree.canRotateRight, ASTree.isMul, hleft, Tree.root, hop, hxop]
  · rw [hleft, Tree.root, hx]
    omega

theorem Standing.turn (h : Standing t (.left i .mul c r) (.node x .mul a b))
    (hd : multDepth r + 1 < multDepth (.node x .mul a b)) (hab : multDepth b < multDepth a) :
    ∃ t', t.reorgVisit i = .ok (t', x) ∧ Standing t' c (.node x .mul a (.node i .mul b r)) ∧
      t'.nodeCounter = t.nodeCounter ∧ t'.nodeStack = t.nodeStack := by
  have hu := h.refresh
  have hrot : t.rotationAt i = some .right := by
    rw [ASTree.rotationAt, if_pos h.counts]
    exact hu.chosen hd hab
  obtain ⟨t', hrun, hturned, hrep⟩ := rightRotate_rep hu.rep hu.hooked.1
  have hnd := ((nodup_plug _).mp hu.rep.nodup).of_append_left
  simp only [Tree.ids, List.cons_append, List.nodup_cons, List.mem_cons, List.mem_append,
    not_or] at hnd
  have hkeeps := rightRotate_keeps ((linked_plug ..).mp hrep.linked).1
    ((nodup_plug _).mp hrep.nodup).of_append_left (rightRotate_redepthed hnd.1.1 hrun)
  have hout {j : ℕ} (hj : j ∈ c.ids) :
      j ∉ (.node i .mul (.node x .mul a b) r : Tree ℕ Op ℤ).ids := fun hmem ↦ hu.notMem hmem hj
  have hparent {j : ℕ} (hi : j ≠ i) (hx : j ≠ x) :
      (t'.nodes j).parent = ((t.refreshDepth i).nodes j).parent := by
    rw [hturned.parent, if_neg hi, if_neg hx]
  refine ⟨t', ?_, ⟨hrep, hu.marked.congr hkeeps.kind, hkeeps.cached hu.cached,
    hu.beside.congr fun j hj ↦ hkeeps.depth j (hout hj), ⟨?_, ?_⟩, ?_⟩,
    hturned.nodeCounter.trans refreshDepth_frame.1, hturned.nodeStack.trans refreshDepth_frame.2⟩
  · rw [ASTree.reorgVisit, hrot]
    exact hrun
  · rw [hturned.parent, if_neg (Ne.symm hnd.1.1), if_pos rfl]
    exact hu.hooked.1
  · refine hu.hooked.2.2.congr fun j hj ↦ hparent ?_ ?_
    · exact ne_of_mem_of_not_mem hj (by grind)
    · exact ne_of_mem_of_not_mem hj (by grind)
  · refine hu.above.congr fun j hj ↦ hparent (fun he ↦ ?_) fun he ↦ ?_
    · exact hout hj (by simp [Tree.ids, he])
    · exact hout hj (by simp [Tree.ids, he])

theorem reorgFrom_last (hrun : t.reorgVisit i = .ok (t', x)) (hp : (t'.nodes x).parent = none) :
    ASTree.reorgFrom (fuel + 1) t i = .ok (t', x) := by
  simp only [ASTree.reorgFrom, hrun, bind, Except.bind, hp]

theorem reorgFrom_next {j : ℕ} (hrun : t.reorgVisit i = .ok (t', x))
    (hp : (t'.nodes x).parent = some j) :
    ASTree.reorgFrom (fuel + 1) t i = ASTree.reorgFrom fuel t' j := by
  simp only [ASTree.reorgFrom, hrun, bind, Except.bind, hp]

theorem reorgFrom_rest (h : Standing t (.left i .mul c r) s) (hs : Spine n q k s)
    (hc : Above (k + 1) (.left i .mul c r)) (hf : c.depth < fuel) :
    ∃ t' x, ASTree.reorgFrom fuel t i = .ok (t', x) ∧
      Standing t' .top (c.plug (.node i .mul s r)) ∧ (c.plug (.node i .mul s r)).root = some x ∧
      t'.nodeCounter = t.nodeCounter ∧ t'.nodeStack = t.nodeStack := by
  induction fuel generalizing t c s r i k with
  | zero => omega
  | succ fuel ih =>
    obtain ⟨-, hr, hc⟩ := hc
    have hspine : Spine n q (k + 1) (.node i .mul s r) := by
      rcases hr with hr | ⟨j, hj, hr⟩
      · exact .level hs hr
      · exact .short hs (Nat.succ.inj hj ▸ hr)
    have hdepth : multDepth r ≤ multDepth s ∧ multDepth s ≤ multDepth r + 1 := by
      rcases hr with hr | ⟨j, hj, hr⟩
      all_goals
        rw [hs.depth, hr.depth]
        omega
    obtain ⟨t', hrun, ht', hcount, hstack⟩ := h.rest hdepth
    cases c with
    | top => exact ⟨t', i, reorgFrom_last hrun ht'.hooked.1, ht', rfl, hcount, hstack⟩
    | left j o c r' =>
      obtain rfl := hc.1
      rw [Context.depth] at hf
      obtain ⟨u, x, hclimb, hu, hx, hcount', hstack'⟩ := ih ht' hspine hc (by omega)
      rw [reorgFrom_next hrun ht'.hooked.1]
      exact ⟨u, x, hclimb, hu, hx, hcount'.trans hcount, hstack'.trans hstack⟩
    | right j o l c => exact hc.elim

/-- A spine that has grown is rotated where a subtree on the right has become too
low, and nowhere above. -/
theorem reorgFrom_grown (h : Standing t (.left i .mul c r) s) (hs : Grown n q k s)
    (hc : Above k (.left i .mul c r)) (hf : c.depth < fuel) :
    ∃ t' x T j, ASTree.reorgFrom fuel t i = .ok (t', x) ∧ Standing t' .top T ∧ T.root = some x ∧
      Spine n q j T ∧ (c.plug (.node i .mul s r)).Reshaped .mul T ∧
      t'.nodeCounter = t.nodeCounter ∧ t'.nodeStack = t.nodeStack := by
  induction fuel generalizing t c s r i k with
  | zero => omega
  | succ fuel ih =>
    obtain ⟨-, hr | ⟨k, rfl, hr⟩, hc⟩ := hc
    · have hdepth : multDepth r ≤ multDepth s ∧ multDepth s ≤ multDepth r + 1 := by
        rw [hs.spine.depth, hr.depth]
        omega
      have hgrown : Grown n q (k + 1) (.node i .mul s r) := .short hs.spine hr
      obtain ⟨t', hrun, ht', hcount, hstack⟩ := h.rest hdepth
      cases c with
      | top =>
        exact ⟨t', i, _, k + 1, reorgFrom_last hrun ht'.hooked.1, ht', rfl, hgrown.spine,
          .refl _, hcount, hstack⟩
      | left j o c r' =>
        obtain rfl := hc.1
        rw [Context.depth] at hf
        obtain ⟨u, x, T, m, hclimb, hu, hx, hT, hres, hcount', hstack'⟩ :=
          ih ht' hgrown hc (by omega)
        rw [reorgFrom_next hrun ht'.hooked.1]
        exact ⟨u, x, T, m, hclimb, hu, hx, hT, hres, hcount'.trans hcount, hstack'.trans hstack⟩
      | right j o l c => exact hc.elim
    · cases hs with
      | @short _ x a b ha hb =>
        have hdepth : multDepth r + 1 < multDepth (.node x .mul a b) := by
          rw [(Spine.short ha hb).depth, hr.depth]
          omega
        have hab : multDepth b < multDepth a := by
          rw [ha.depth, hb.depth]
          omega
        have hspine : Spine n q (k + 1) (.node x .mul a (.node i .mul b r)) :=
          .level ha ⟨rfl, hb, hr⟩
        have hres : (c.plug (.node i .mul (.node x .mul a b) r)).Reshaped .mul
            (c.plug (.node x .mul a (.node i .mul b r))) := .right c i x a b r (.refl _)
        obtain ⟨t', hrun, ht', hcount, hstack⟩ := h.turn hdepth hab
        cases c with
        | top =>
          exact ⟨t', x, _, k + 1, reorgFrom_last hrun ht'.hooked.1, ht', rfl, hspine, hres,
            hcount, hstack⟩
        | left j o c r' =>
          obtain rfl := hc.1
          obtain ⟨u, y, hclimb, hu, hy, hcount', hstack'⟩ :=
            reorgFrom_rest ht' hspine hc (Nat.lt_of_succ_lt_succ hf)
          rw [reorgFrom_next hrun ht'.hooked.1]
          exact ⟨u, y, _, _, hclimb, hu, hy, hspine.plug hc, hres, hcount'.trans hcount,
            hstack'.trans hstack⟩
        | right j o l c => exact hc.elim

end Climbing

section Growth

variable {t t' : ASTree} {c : Context ℕ Op ℤ} {i n k new : ℕ} {q r s T : Tree ℕ Op ℤ}
variable {stack : List ℕ} {tok : Token}

theorem hooked_plug {nodes : ℕ → ASTNode} (hc : Above k c) :
    Hooked nodes none (c.plug s) ↔ Hooked nodes (owner c) s ∧ HookedAbove nodes c := by
  induction c generalizing k s with
  | top => simp [Context.plug, owner, HookedAbove]
  | left i o c r ih =>
    simp only [Context.plug, ih hc.2.2, Hooked, HookedAbove, owner]
    tauto
  | right i o l c => exact hc.elim

theorem Standing.same (h : Standing t c s) (hnodes : t'.nodes = t.nodes)
    (hcount : t'.nodeCounter = t.nodeCounter) : Standing t' c s where
  rep := ⟨hnodes ▸ h.rep.linked, h.rep.nodup, by rw [hnodes]; exact h.rep.bounded,
    hcount ▸ h.rep.fresh⟩
  marked i := by rw [hnodes]; exact h.marked i
  cached := hnodes ▸ h.cached
  beside := hnodes ▸ h.beside
  hooked := hnodes ▸ h.hooked
  above := hnodes ▸ h.above

theorem rebalance_grown (new : ℕ) (h : Standing t (.left i .mul c r) s) (hs : Grown n q k s)
    (hc : Above k (.left i .mul c r)) (hnew : (t.nodes new).countsForDepth = true) :
    ∃ t' T j, rebalance t i new = .ok t' ∧ Standing t' .top T ∧ T.root = t'.root ∧
      Spine n q j T ∧ (c.plug (.node i .mul s r)).Reshaped .mul T ∧
      t'.nodeCounter = t.nodeCounter ∧ t'.nodeStack = t.nodeStack := by
  have hfuel : c.depth < t.nodeCounter := by
    have hrep : Rep t (c.plug (.node i .mul s r)) := h.rep
    have hlen := (c.ids_plug (.node i .mul s r)).length_eq ▸ hrep.length_le
    have hdepth := c.depth_le
    simp only [Tree.ids, List.length_cons, List.length_append] at hlen
    omega
  obtain ⟨t', x, T, j, hrun, ht', hx, hT, hres, hcount, hstack⟩ := reorgFrom_grown h hs hc hfuel
  refine ⟨{ t' with root := some x }, T, j, ?_, ht'.same rfl rfl, hx, hT, hres, hcount, hstack⟩
  rw [rebalance, if_pos hnew, hrun]
  rfl

theorem insertChild_snd (t : ASTree) (i j : ℕ) :
    (t.insertChild i j).2 = (t.nodes i).rightChild.isSome := by
  rw [ASTree.insertChild]
  split <;> simp [*]

theorem tokenTree_root (i : ℕ) (tok : Token) : (tokenTree i tok).root = some i := by
  cases tok <;> rfl

theorem allocateBelow_rightChild (h : Rep t (c.plug (.node n .mul s r))) :
    ((allocateBelow t stack tok n).nodes n).rightChild = r.root := by
  obtain ⟨hl, -⟩ := (linked_plug ..).mp h.linked
  have hne : n ≠ t.nodeCounter :=
    Nat.ne_of_lt (h.fresh n ((c.ids_plug _).mem_iff.mpr List.mem_cons_self))
  rw [allocateBelow_nodes, if_neg hne]
  exact hl.2.2.1

theorem inserted_left (h : Rep t ((Context.left n .mul c r).plug .hole)) (hr : r.root ≠ none) :
    Rep (inserted t stack tok n)
      ((Context.left n .mul c r).plug (tokenTree t.nodeCounter tok)) := by
  obtain ⟨j, hj⟩ := Option.ne_none_iff_exists'.mp hr
  have hright : ((allocateBelow t stack tok n).nodes n).rightChild = r.root :=
    allocateBelow_rightChild (s := .hole) h
  rw [inserted, ASTree.insertChild, hright, hj]
  exact (allocateBelow_hung h (.inr rfl)).setLeftChild (tokenTree_root ..)

theorem inserted_right (h : Rep t ((Context.right n .mul s c).plug .hole)) :
    Rep (inserted t stack tok n)
      ((Context.right n .mul s c).plug (tokenTree t.nodeCounter tok)) := by
  have hright : ((allocateBelow t stack tok n).nodes n).rightChild = none :=
    allocateBelow_rightChild (r := .hole) h
  rw [inserted, ASTree.insertChild, hright]
  exact (allocateBelow_hung h (.inl rfl)).setRightChild (tokenTree_root ..)

theorem inserted_parent (j : ℕ) : ((inserted t stack tok i).nodes j).parent =
    if j = t.nodeCounter then some i else (t.nodes j).parent := by
  rw [inserted_keeps ASTNode.parent (fun _ _ ↦ rfl) fun _ _ ↦ rfl]
  cases tok <;> rfl

/-- What holds of the loop of `build_tree` between two tokens of a product. -/
structure Growing (s : BuildState) (T : Tree ℕ Op ℤ) (n k : ℕ) (q : Tree ℕ Op ℤ) : Prop where
  standing : Standing s.tree .top T
  spine : Spine n q k T
  root : T.root = s.tree.root
  stack : s.tree.nodeStack = [n]

section Steps

variable {b : BuildState} {f : List Char}

theorem Standing.point (h : Standing b.tree .top (c.plug (.node n .mul .hole q)))
    (hstack : b.tree.nodeStack = [n]) : insertionPoint b = .ok (some n, [n]) := by
  obtain ⟨hl, -⟩ := (linked_plug (c := c) (.node n .mul .hole q)).mp h.rep.linked
  have hfull : (b.tree.nodes n).isFull = false := by
    rw [ASTNode.isFull, hl.2.1]
    exact Bool.and_false _
  rw [insertionPoint, hstack]
  simp only [dropFull, hfull, Bool.false_eq_true, if_false, bind, Except.bind, pure, Except.pure]

theorem buildStep_attached {t₁ t₂ : ASTree} (hpoint : insertionPoint b = .ok (some n, [n]))
    (hroot : b.tree.root ≠ none) (hv : ValidToken tok)
    (hrun : rebalance (inserted b.tree [n] tok n) n b.tree.nodeCounter = .ok t₁)
    (hpop : (if ((allocateBelow b.tree [n] tok n).nodes n).rightChild.isSome then popStack t₁
      else .ok t₁) = .ok t₂) :
    buildStep b tok =
      .ok ⟨pushOperator t₂ b.tree.nodeCounter (tokenNode none tok).isLeaf, some n⟩ := by
  obtain ⟨k, hk⟩ := Option.ne_none_iff_exists'.mp hroot
  refine buildStep_ok hpoint hv ?_
  have hattach :
      attach (allocate b.tree [n] (tokenNode none tok)) n b.tree.nodeCounter = .ok t₂ := by
    rw [attach_eq hrun, insertChild_snd]
    exact hpop
  simpa [place, allocate, hk] using hattach

theorem inserted_frame : (inserted t stack tok i).nodeCounter = t.nodeCounter + 1 ∧
    (inserted t stack tok i).nodeStack = stack ∧ (inserted t stack tok i).root = t.root := by
  obtain ⟨hcount, hstack, hroot, -⟩ := @insertChild_frame (allocateBelow t stack tok i) i
    t.nodeCounter t.nodeCounter
  exact ⟨hcount, hstack, hroot⟩

theorem inserted_counts : ((inserted t stack tok i).nodes t.nodeCounter).countsForDepth =
    (tokenNode none tok).countsForDepth := by
  rw [inserted_keeps ASTNode.countsForDepth (fun _ _ ↦ rfl) fun _ _ ↦ rfl, if_pos rfl]
  cases tok <;> rfl

theorem Standing.hook (h : Standing t .top (c.plug s)) (hc : Above k c) (stack : List ℕ)
    (tok : Token) (i : ℕ) :
    Hooked (inserted t stack tok i).nodes (owner c) s ∧
      HookedAbove (inserted t stack tok i).nodes c := by
  refine (hooked_plug hc).mp (h.hooked.congr fun j hj ↦ ?_)
  rw [inserted_parent, if_neg (Nat.ne_of_lt (h.rep.fresh j hj))]

theorem plug_root (c : Context ℕ Op ℤ) {s s' : Tree ℕ Op ℤ} (h : s.root = s'.root) :
    (c.plug s).root = (c.plug s').root := by
  by_cases hc : c = .top
  · rw [hc]
    exact h
  · exact Context.root_plug hc s s'

theorem labels_plug_left {T : Tree ℕ Op ℤ} (hc : Above k c) :
    (c.plug T).labels = T.labels ++ (c.plug .hole).labels := by
  induction c generalizing k T with
  | top => exact (List.append_nil _).symm
  | left i o c r ih =>
    simp only [Context.plug]
    rw [ih hc.2.2, ih (T := .node i o .hole r) hc.2.2]
    simp [Tree.labels]
  | right i o l c => exact hc.elim

theorem Growing.root_ne (h : Growing b T n k q) : b.tree.root ≠ none := by
  obtain ⟨i, hi⟩ := h.spine.root
  rw [← h.root, hi]
  exact Option.some_ne_none i

/-- A further product hangs a node below the left end and may set off a rotation. -/
theorem Growing.times (h : Growing b T n k q) (hq : q.root ≠ none) :
    ∃ b' T' j, buildStep b (.op .mul) = .ok b' ∧ Growing b' T' b.tree.nodeCounter j .hole ∧
      T'.holes = T.holes + 1 ∧ T'.labels = T.labels := by
  obtain ⟨c, rfl, hq₀, hc, -⟩ := h.spine.position
  have hrep : Rep b.tree ((Context.left n .mul c q).plug .hole) := h.standing.rep
  have habove : Above 0 (.left n .mul c q) := ⟨rfl, .inl hq₀, hc⟩
  obtain ⟨hcached, hbeside, -⟩ := inserted_cached [n] (.op .mul) n hrep h.standing.cached
  have hhooked : HookedAbove (inserted b.tree [n] (.op .mul) n).nodes (.left n .mul c q) :=
    (Standing.hook (s := .hole) h.standing habove [n] (.op .mul) n).2
  have hstanding : Standing (inserted b.tree [n] (.op .mul) n) (.left n .mul c q)
      (.node b.tree.nodeCounter .mul .hole .hole) :=
    ⟨inserted_left hrep hq, inserted_marked h.standing.marked, hcached, hbeside,
      ⟨(inserted_parent _).trans (if_pos rfl), trivial⟩, hhooked⟩
  obtain ⟨t₁, T', j, hrun, ht₁, hroot, hT', hres, hcount, hstack⟩ :=
    rebalance_grown b.tree.nodeCounter hstanding (.bottom trivial) habove inserted_counts
  obtain ⟨j', hj'⟩ := Option.ne_none_iff_exists'.mp hq
  have hpop : (if ((allocateBelow b.tree [n] (.op .mul) n).nodes n).rightChild.isSome
      then popStack t₁ else .ok t₁) = .ok { t₁ with nodeStack := [] } := by
    rw [allocateBelow_rightChild (s := .hole) hrep, hj', popStack, hstack, inserted_frame.2.1]
    rfl
  have hstep := buildStep_attached (h.standing.point h.stack) h.root_ne ⟨rfl, rfl⟩ hrun hpop
  refine ⟨_, T', j, hstep, ⟨ht₁.same rfl rfl, hT', hroot, rfl⟩, ?_, ?_⟩
  · rw [hres.holes]
    refine c.holes_plug ?_
    simp only [Tree.holes]
    omega
  · rw [hres.labels]
    exact c.labels_plug rfl

theorem rebalance_factor :
    rebalance (inserted t stack (.num f) i) i t.nodeCounter =
      .ok (inserted t stack (.num f) i) := by
  rw [rebalance, if_neg]
  · rfl
  · rw [inserted_counts]
    exact Bool.false_ne_true

theorem Growing.factor (h : Growing b T n k .hole) (hv : ValidToken (.num f)) :
    ∃ b' T', buildStep b (.num f) = .ok b' ∧
      Growing b' T' n k (.leaf b.tree.nodeCounter (decimal f)) ∧ T'.holes + 1 = T.holes ∧
      T'.labels = (decimal f : ℤ) :: T.labels := by
  obtain ⟨c, rfl, -, hc, rfl⟩ := h.spine.position
  have hrep : Rep b.tree ((Context.right n .mul .hole c).plug .hole) := h.standing.rep
  obtain ⟨-, -, hcached⟩ := inserted_cached [n] (.num f) n hrep h.standing.cached
  have hpop : (if ((allocateBelow b.tree [n] (.num f) n).nodes n).rightChild.isSome
      then popStack (inserted b.tree [n] (.num f) n) else .ok (inserted b.tree [n] (.num f) n)) =
      .ok (inserted b.tree [n] (.num f) n) := by
    rw [allocateBelow_rightChild (s := .hole) (r := .hole) hrep]
    rfl
  have hstep := buildStep_attached (h.standing.point h.stack) h.root_ne hv rebalance_factor hpop
  have hhooked := h.standing.hook hc [n] (.num f) n
  have hspine : Spine n (.leaf b.tree.nodeCounter (decimal f)) (0 + c.depth)
      (c.plug (.node n .mul .hole (.leaf b.tree.nodeCounter (decimal f)))) :=
    (Spine.bottom (by trivial)).plug hc
  rw [Nat.zero_add] at hspine
  have hplug : (c.plug (.node n .mul .hole (.leaf b.tree.nodeCounter (decimal f)))).root =
      (c.plug (.node n .mul .hole .hole)).root := plug_root c rfl
  refine ⟨_, c.plug (.node n .mul .hole (.leaf b.tree.nodeCounter (decimal f))), hstep,
    ⟨⟨inserted_right hrep, inserted_marked h.standing.marked, hcached rfl, trivial, ?_, trivial⟩,
      hspine, ?_, ?_⟩, ?_, ?_⟩
  · exact (hooked_plug hc).mpr ⟨hhooked.1, hhooked.2⟩
  · exact hplug.trans (h.root.trans (@inserted_frame b.tree n [n] (.num f)).2.2.symm)
  · exact inserted_frame.2.1
  · exact (c.holes_plug rfl).symm
  · rw [labels_plug_left hc, labels_plug_left (T := .node n .mul .hole .hole) hc]
    rfl

theorem Growing.finish (h : Growing b T n k q) (hq : q.root ≠ none) (hv : ValidToken (.num f)) :
    ∃ b' T', buildStep b (.num f) = .ok b' ∧ Rep b'.tree T' ∧ T'.root = b'.tree.root ∧
      DepthsCached b'.tree.nodes T' ∧ OnlyProducts T' ∧ multDepth T' = k + 1 ∧
      T'.holes + 1 = T.holes ∧ T'.labels = (decimal f : ℤ) :: T.labels := by
  have hdepth := h.spine.depth
  have hproducts := h.spine.onlyProducts
  obtain ⟨c, rfl, hq₀, hc, -⟩ := h.spine.position
  have hrep : Rep b.tree ((Context.left n .mul c q).plug .hole) := h.standing.rep
  obtain ⟨-, -, hcached⟩ := inserted_cached [n] (.num f) n hrep h.standing.cached
  obtain ⟨j, hj⟩ := Option.ne_none_iff_exists'.mp hq
  have hpop : (if ((allocateBelow b.tree [n] (.num f) n).nodes n).rightChild.isSome
      then popStack (inserted b.tree [n] (.num f) n) else .ok (inserted b.tree [n] (.num f) n)) =
      .ok { inserted b.tree [n] (.num f) n with nodeStack := [] } := by
    rw [allocateBelow_rightChild (s := .hole) hrep, hj, popStack, inserted_frame.2.1]
    rfl
  have hstep := buildStep_attached (h.standing.point h.stack) h.root_ne hv rebalance_factor hpop
  have hleft : Rep (inserted b.tree [n] (.num f) n)
      (c.plug (.node n .mul (.leaf b.tree.nodeCounter (decimal f)) q)) := inserted_left hrep hq
  have hplug : (c.plug (.node n .mul (.leaf b.tree.nodeCounter (decimal f)) q)).root =
      (c.plug (.node n .mul .hole q)).root := plug_root c rfl
  refine ⟨_, c.plug (.node n .mul (.leaf b.tree.nodeCounter (decimal f)) q), hstep,
    ⟨hleft.linked, hleft.nodup, hleft.bounded, hleft.fresh⟩, ?_, hcached rfl, ?_, ?_, ?_, ?_⟩
  · exact hplug.trans (h.root.trans (@inserted_frame b.tree n [n] (.num f)).2.2.symm)
  · exact hproducts.replace fun hnode ↦ ⟨hnode.1, trivial, hnode.2.2⟩
  · rw [← hdepth]
    exact c.weight_plug _ rfl
  · refine (c.holes_plug ?_).symm
    simp only [Tree.holes]
    omega
  · rw [labels_plug_left hc, labels_plug_left (T := .node n .mul .hole q) hc]
    rfl

theorem Growing.init : ∃ b, buildStep .init (.op .mul) = .ok b ∧
    Growing b (.node 0 .mul .hole .hole) 0 0 .hole := by
  obtain ⟨b, hstep, hbuilt, -, hnodes⟩ := @buildStep_first _ _ (.op .mul) Built.init ⟨rfl, rfl⟩
  have hstack : b.tree.nodeStack = [0] := by
    obtain rfl := Except.ok.inj hstep
    rfl
  refine ⟨b, hstep, ⟨hbuilt.rep, fun j ↦ ?_, ?_, trivial, ⟨?_, trivial⟩, trivial⟩,
    .bottom (by trivial), hbuilt.root, hstack⟩
  · rw [hnodes, Function.update_apply]
    split_ifs <;> rfl
  · refine ⟨?_, trivial, trivial⟩
    rw [hnodes]
    rfl
  · rw [hnodes]
    rfl

def reversed (factors : List (List Char)) : List Token :=
  factors.flatMap fun f ↦ [.op .mul, .num f]

theorem buildLoop_product {factors : List (List Char)} {m : ℕ} {v : ℤ}
    (h : Growing b T n k (.leaf m v)) (hv : ∀ f ∈ factors, ValidToken (.num f)) :
    ∃ b' T' n' k' m' v', (reversed factors).foldlM buildStep b = .ok b' ∧
      Growing b' T' n' k' (.leaf m' v') ∧ T'.holes = T.holes ∧
      T'.labels = factors.reverse.map (fun f ↦ (decimal f : ℤ)) ++ T.labels := by
  induction factors generalizing b T n k m v with
  | nil => exact ⟨b, T, n, k, m, v, rfl, h, rfl, rfl⟩
  | cons f factors ih =>
    have hf := hv f List.mem_cons_self
    obtain ⟨b₁, T₁, k₁, hstep₁, h₁, hholes₁, hlabels₁⟩ := h.times (Option.some_ne_none m)
    obtain ⟨b₂, T₂, hstep₂, h₂, hholes₂, hlabels₂⟩ := h₁.factor hf
    obtain ⟨b', T', n', k', m', v', hloop, h', hholes, hlabels⟩ :=
      ih h₂ fun g hg ↦ hv g (List.mem_cons_of_mem f hg)
    refine ⟨b', T', n', k', m', v', ?_, h', by omega, ?_⟩
    · simp only [reversed, List.flatMap_cons, List.cons_append, List.nil_append, List.foldlM_cons,
        hstep₁, hstep₂, bind, Except.bind]
      exact hloop
    · rw [hlabels, hlabels₂, hlabels₁]
      simp

theorem buildLoop_whole {first last : List Char} {factors : List (List Char)}
    (hv : ∀ f ∈ first :: last :: factors, ValidToken (.num f)) :
    ∃ b T, (reversed (last :: factors) ++ [Token.num first]).foldlM buildStep .init = .ok b ∧
      Rep b.tree T ∧ T.root = b.tree.root ∧ DepthsCached b.tree.nodes T ∧ OnlyProducts T ∧
      T.holes = 0 ∧ T.labels = (first :: (last :: factors).reverse).map (fun f ↦ (decimal f : ℤ)) ∧
      multDepth T = Nat.clog 2 (factors.length + 2) := by
  have hfactors : ∀ f ∈ factors, ValidToken (.num f) := fun f hf ↦ hv f (by simp [hf])
  obtain ⟨b₁, hstep₁, h₁⟩ := Growing.init
  obtain ⟨b₂, T₂, hstep₂, h₂, hholes₂, hlabels₂⟩ := h₁.factor (hv last (by simp))
  obtain ⟨b₃, T₃, n, k, m, v, hloop, h₃, hholes₃, hlabels₃⟩ :=
    buildLoop_product h₂ hfactors
  obtain ⟨b₄, T₄, hstep₄, hrep, hroot, hcached, hproducts, hdepth, hholes₄, hlabels₄⟩ :=
    h₃.finish (Option.some_ne_none m) (hv first (by simp))
  have hone : (.node 0 Op.mul .hole .hole : Tree ℕ Op ℤ).holes = 2 := rfl
  refine ⟨b₄, T₄, ?_, hrep, hroot, hcached, hproducts, by omega, ?_, ?_⟩
  · have htokens : reversed (last :: factors) ++ [Token.num first] =
        .op .mul :: .num last :: (reversed factors ++ [.num first]) := rfl
    rw [htokens, List.foldlM_cons, hstep₁]
    simp only [bind, Except.bind]
    rw [List.foldlM_cons, hstep₂]
    simp only [bind, Except.bind]
    rw [List.foldlM_append, hloop]
    exact (bind_pure _).trans hstep₄
  · rw [hlabels₄, hlabels₃, hlabels₂]
    simp [Tree.labels]
  · have hsize := T₃.size_succ
    obtain ⟨hlow, hhigh⟩ := h₃.spine.size
    rw [hlabels₃, hlabels₂] at hsize
    simp only [List.length_append, List.length_map, List.length_reverse, List.length_cons,
      Tree.labels, List.length_nil] at hsize
    rw [hdepth]
    refine le_antisymm ?_ ?_
    · exact (Nat.lt_clog_iff_pow_lt Nat.one_lt_two).mpr (by omega)
    · exact Nat.clog_le_of_le_pow (by omega)

end Steps

end Growth

section Writings

def product (first : List Char) (rest : List (List Char)) : Writing :=
  rest.foldl (fun w f ↦ .binary .mul w (.literal f)) (.literal first)

variable {first : List Char} {rest : List (List Char)}

theorem product_append (f : List Char) :
    product first (rest ++ [f]) = .binary .mul (product first rest) (.literal f) := by
  simp [product]

theorem product_proper (hv : ∀ f ∈ first :: rest, ValidToken (.num f)) {p : ℕ} (hp : p ≤ 3) :
    (product first rest).Proper p := by
  have hliteral {f : List Char} (hf : ValidToken (.num f)) (p : ℕ) :
      (Writing.literal f).Proper p := by
    have hnumeral := hf.1
    simp only [isNumeral, Bool.and_eq_true, decide_eq_true_eq] at hnumeral
    exact hnumeral
  induction rest using List.reverseRecOn generalizing p with
  | nil => exact hliteral (hv first List.mem_cons_self) p
  | append_singleton rest f ih =>
    rw [product_append]
    refine ⟨hp, ih (fun g hg ↦ hv g ?_) le_rfl, hliteral (hv f (by simp)) 4⟩
    rcases List.mem_cons.mp hg with rfl | hg
    · exact List.mem_cons_self
    · exact List.mem_cons_of_mem _ (List.mem_append_left _ hg)

theorem product_postorder :
    (product first rest).expression.postorder.reverse =
      reversed rest.reverse ++ [Token.num first] := by
  induction rest using List.reverseRecOn with
  | nil => rfl
  | append_singleton rest f ih =>
    rw [product_append]
    simp [Writing.expression, Expression.postorder, ih, reversed]

theorem product_operators : (product first rest).expression.operators = rest.length := by
  induction rest using List.reverseRecOn with
  | nil => rfl
  | append_singleton rest f ih =>
    rw [product_append]
    simp [Writing.expression, Expression.operators, ih]

theorem product_enclosed : (product first rest).enclosed = false := by
  induction rest using List.reverseRecOn with
  | nil => rfl
  | append_singleton rest f ih =>
    rw [product_append]
    rfl

theorem ofInt_natCast (d : ℕ) : UInt32.ofInt d = UInt32.ofNat d := by
  apply UInt32.toNat.inj
  simp only [UInt32.ofInt, UInt32.toNat_ofNat']
  omega

theorem product_shunt (hne : rest ≠ []) (hv : ∀ f ∈ first :: rest, ValidToken (.num f)) :
    shunt (encode (product first rest).text) = .ok (product first rest).expression.postorder := by
  rw [shunt_eq (product_proper hv (Nat.zero_le 3)), if_neg]
  rintro (henclosed | hzero)
  · exact Bool.false_ne_true (product_enclosed.symm.trans henclosed)
  · exact hne (List.length_eq_zero_iff.mp (product_operators.symm.trans hzero))

/-- The difficulty of a product is the least depth that an arrangement of its
factors can have, and the tree still computes the product. -/
theorem product_depth (hne : rest ≠ []) (hv : ∀ f ∈ first :: rest, ValidToken (.num f)) :
    ∃ t root e, ast (encode (product first rest).text) = .ok (t, root) ∧
      treeDepth (encode (product first rest).text) =
        .ok (UInt32.ofNat (Nat.clog 2 (rest.length + 1))) ∧
      multDepth (reachable t) = Nat.clog 2 (rest.length + 1) ∧
      (∀ T : Tree ℕ Op ℤ, OnlyProducts T → T.holes = 0 → T.labels.length = rest.length + 1 →
        multDepth (reachable t) ≤ multDepth T) ∧
      toExpr? (reachable t) = some e ∧
      ∀ (R : Type) [Ring R] (ρ : ℤ → R),
        e.eval ρ = ((first :: rest).map fun f ↦ ρ (decimal f)).prod := by
  obtain ⟨last, factors, hrest⟩ : ∃ last factors, rest.reverse = last :: factors :=
    List.exists_cons_of_ne_nil (mt List.reverse_eq_nil_iff.mp hne)
  have hrest' : rest = (last :: factors).reverse := by rw [← hrest, List.reverse_reverse]
  have hlength : rest.length = factors.length + 1 := by rw [hrest']; simp
  have hfactors : ∀ f ∈ first :: last :: factors, ValidToken (.num f) := by
    intro f hf
    refine hv f ?_
    simpa only [hrest', List.mem_cons, List.mem_reverse] using hf
  obtain ⟨b, T, hloop, hrep, hroot, hcached, hproducts, hholes, hlabels, hdepth⟩ :=
    buildLoop_whole hfactors
  rw [← hrest'] at hlabels
  rw [hlength]
  have hbuild : buildTree (product first rest).expression.postorder = .ok b.tree := by
    rw [buildTree, product_postorder, hrest, hloop]
    rfl
  have hreach : reachable b.tree = T := reachable_eq hrep hroot
  obtain ⟨e, he⟩ := exists_toExpr? hholes
  obtain ⟨root, hr⟩ := root_of_toExpr? he
  have hcached' := hcached.root hr
  rw [hroot] at hr
  refine ⟨b.tree, root, e, ?_, ?_, ?_, ?_, ?_, ?_⟩
  · rw [ast, product_shunt hne hv]
    simp only [bind, Except.bind, hbuild, Except.mapError, hr]
    rfl
  · rw [treeDepth, product_shunt hne hv]
    simp only [bind, Except.bind, hbuild, Except.mapError, hr]
    rw [hcached', hdepth, ofInt_natCast]
    rfl
  · rw [hreach, hdepth]
  · intro T' hT' hholes' hlength'
    rw [hreach, hdepth, ← hlength']
    exact hT'.clog_le hholes'
  · rw [hreach, he]
  · intro R _ ρ
    rw [hproducts.eval ρ he, hlabels, List.map_map]
    rfl

/-- `2*3*10*7*0` -/
theorem product_depth_sample : ∃ t root,
    ast ("2*3*10*7*0".toUTF8.toList) = .ok (t, root) ∧
      treeDepth ("2*3*10*7*0".toUTF8.toList) = .ok 3 ∧ multDepth (reachable t) = 3 := by
  have hne : [['3'], ['1', '0'], ['7'], ['0']] ≠ [] := List.cons_ne_nil _ _
  have hv : ∀ f ∈ [['2'], ['3'], ['1', '0'], ['7'], ['0']], ValidToken (.num f) := by
    unfold ValidToken
    decide
  have htext : "2*3*10*7*0".toUTF8.toList =
      encode (product ['2'] [['3'], ['1', '0'], ['7'], ['0']]).text := by decide +kernel
  obtain ⟨t, root, -, hast, hdepth, hmult, -⟩ := product_depth hne hv
  have hclog : Nat.clog 2 ([['3'], ['1', '0'], ['7'], ['0']].length + 1) = 3 := by decide
  rw [hclog] at hdepth hmult
  rw [htext]
  exact ⟨t, root, hast, hdepth, hmult⟩

end Writings

end FheBlockchain.Computer.Products
