import FheBlockchain.Computer.AstRotation

namespace FheBlockchain.Computer.AstMeaning

open Ast AstMemory AstRotation Library.HoleTree

universe u

inductive Expr
  | operand (v : ℤ)
  | node (o : Op) (l r : Expr)
deriving DecidableEq, Repr

def Expr.leaves : Expr → List ℤ
  | operand v => [v]
  | node _ l r => l.leaves ++ r.leaves

section Meaning

variable {R : Type u} [Ring R]

def applyOp : Op → R → R → R
  | .add, a, b => a + b
  | .sub, a, b => a - b
  | .mul, a, b => a * b

def Expr.eval (ρ : ℤ → R) : Expr → R
  | operand v => ρ v
  | node o l r => applyOp o (l.eval ρ) (r.eval ρ)

def postfixStep (ρ : ℤ → R) : List R → Token → Option (List R)
  | st, .num digits => some (ρ (decimal digits) :: st)
  | b :: a :: st, .op o => some (applyOp o a b :: st)
  | _, .op _ => none

def postfixValue (ρ : ℤ → R) (toks : List Token) : Option R :=
  match toks.foldlM (postfixStep ρ) [] with
  | some [v] => some v
  | _ => none

end Meaning

def postfixHeight : ℕ → Token → Option ℕ
  | n, .num _ => some (n + 1)
  | n + 2, .op _ => some (n + 1)
  | _, .op _ => none

def isNumeral : Token → Bool
  | .op _ => true
  | .num digits => digits ≠ [] && digits.all Char.isDigit

def WellFormed (toks : List Token) : Prop :=
  toks.foldlM postfixHeight 0 = some 1 ∧ ∀ tok ∈ toks, isNumeral tok = true

instance : DecidablePred WellFormed := fun _ ↦ inferInstanceAs (Decidable (_ ∧ _))

def operands (toks : List Token) : List ℤ :=
  toks.filterMap fun
    | .num digits => some (decimal digits : ℤ)
    | .op _ => none

def readTree (nodes : ℕ → ASTNode) : ℕ → Option ℕ → Tree ℕ Op ℤ
  | 0, _ | _, none => .hole
  | fuel + 1, some i =>
    if (nodes i).isLeaf then .leaf i (nodes i).val
    else match (nodes i).op with
      | none => .hole
      | some o => .node i o (readTree nodes fuel (nodes i).leftChild)
          (readTree nodes fuel (nodes i).rightChild)

def toExpr? : Tree ℕ Op ℤ → Option Expr
  | .hole => none
  | .leaf _ v => some (.operand v)
  | .node _ o l r => do return .node o (← toExpr? l) (← toExpr? r)

/-- The tree below `root_`. No path in it is longer than the number of nodes
that were ever allocated. -/
def reachable (t : ASTree) : Tree ℕ Op ℤ := readTree t.nodes t.nodeCounter t.root

def Preserved (toks : List Token) : Prop :=
  ∃ t e, buildTree toks = .ok t ∧ toExpr? (reachable t) = some e ∧ e.leaves = operands toks ∧
    ∀ (R : Type u) [Ring R] (ρ : ℤ → R), postfixValue ρ toks = some (e.eval ρ)

def insertionCurrent (s : BuildState) : Bool :=
  match s.tree.root, dropFull s.tree.nodes s.tree.nodeStack with
  | none, _ => true
  | some _, .ok (i, _) => (reachable s.tree).freeOwner = some i
  | some _, .error _ => false

/-- The rotations that the insertion of a token sets off are all made at nodes
whose parent link is current. -/
def rebalanceCurrent (s : BuildState) (tok : Token) : Bool :=
  match s.tree.root, dropFull s.tree.nodes s.tree.nodeStack, makeNode tok with
  | some _, .ok (i, stack), .ok node =>
    let new := s.tree.nodeCounter
    let t := (allocate s.tree stack node).modify new fun n ↦ { n with parent := some i }
    !node.countsForDepth || rotationsCurrent t.nodeCounter (t.insertChild i new).1 i
  | _, _, _ => true

def runCurrent : BuildState → List Token → Bool
  | _, [] => true
  | s, tok :: toks => insertionCurrent s && rebalanceCurrent s tok &&
    match buildStep s tok with
    | .ok s => runCurrent s toks
    | .error _ => true

def tokenTree (i : ℕ) : Token → Tree ℕ Op ℤ
  | .num digits => .leaf i (decimal digits)
  | .op o => .node i o .hole .hole

/-- The trees that can be built from the last tokens of a postfix sequence:
each token fills the rightmost hole, and products may then be rotated. -/
inductive Builds : List Token → Tree ℕ Op ℤ → Prop
  | nil : Builds [] .hole
  | cons {toks : List Token} {T : Tree ℕ Op ℤ} (c : Context ℕ Op ℤ) (i : ℕ) (tok : Token)
    (h : Builds toks (c.plug .hole)) (hc : c.RightFull)
    (hT : (c.plug (tokenTree i tok)).Reshaped .mul T) : Builds (tok :: toks) T

theorem Builds.holes {toks : List Token} {T : Tree ℕ Op ℤ} (h : Builds toks T) {n : ℕ}
    (hn : toks.foldlM postfixHeight n = some 1) : T.holes = n := by
  induction h generalizing n with
  | nil => simpa [Tree.holes, eq_comm] using hn
  | @cons toks T c i tok _ hc hT ih =>
    rw [List.foldlM_cons] at hn
    rw [hT.holes]
    cases tok with
    | num digits =>
      have hplug := @Context.holes_plug _ _ _ c (tokenTree i (.num digits)) .hole 1 rfl
      have := ih hn
      omega
    | op o =>
      have hplug := @Context.holes_plug _ _ _ c .hole (tokenTree i (.op o)) 1 rfl
      obtain _ | _ | n := n
      · simp [postfixHeight] at hn
      · simp [postfixHeight] at hn
      · have := ih hn
        omega

theorem Builds.ne_hole {tok : Token} {toks : List Token} {T : Tree ℕ Op ℤ}
    (h : Builds (tok :: toks) T) : T ≠ .hole := by
  cases h with
  | cons c i _ _ _ hT =>
    rintro rfl
    have := hT.isHole (c.isHole_plug (by cases tok <;> rfl))
    simp [Tree.isHole] at this

section Values

variable {β : Type u} [Inhabited β] (A : Algebra Op ℤ β)

def stackStep : List β → Token → List β
  | st, .num digits => A.leaf (decimal digits) :: st
  | st, .op o => A.op o (st.tail.head?.getD default) (st.head?.getD default) :: st.tail.tail

theorem tokenTree_eval (i : ℕ) (tok : Token) (st : List β) :
    ((tokenTree i tok).eval A st).1 :: ((tokenTree i tok).eval A st).2 = stackStep A st tok := by
  cases tok <;> rfl

theorem Builds.eval (hmul : ∀ a b c, A.op .mul (A.op .mul a b) c = A.op .mul a (A.op .mul b c))
    {toks : List Token} {T : Tree ℕ Op ℤ} (h : Builds toks T) (st : List β) :
    T.eval A st = Tree.eval A (.hole : Tree ℕ Op ℤ) (toks.foldl (stackStep A) st) := by
  induction h generalizing st with
  | nil => rfl
  | @cons toks T c i tok _ hc hT ih =>
    calc T.eval A st = (c.plug (tokenTree i tok)).eval A st := (hT.same A hmul st).symm
      _ = (c.plug .hole).eval A (stackStep A st tok) := by
        rw [Context.eval_plug A hc, tokenTree_eval]
      _ = _ := ih _

theorem stackStep_length {st : List β} {tok : Token} {n : ℕ}
    (h : postfixHeight st.length tok = some n) : (stackStep A st tok).length = n := by
  match tok, st with
  | .num digits, st => simpa [postfixHeight, stackStep] using h
  | .op o, [] | .op o, [_] => simp [postfixHeight] at h
  | .op o, b :: a :: st => simpa [postfixHeight, stackStep] using h

theorem fold_length {toks : List Token} (st : List β) {n : ℕ}
    (h : toks.foldlM postfixHeight st.length = some n) :
    (toks.foldl (stackStep A) st).length = n := by
  induction toks generalizing st with
  | nil => simpa using h
  | cons tok toks ih =>
    rw [List.foldlM_cons, Option.bind_eq_bind, Option.bind_eq_some_iff] at h
    obtain ⟨m, hm, hrest⟩ := h
    exact ih _ (by rwa [stackStep_length A hm])

end Values

def leafAlgebra : Algebra Op ℤ (List ℤ) where
  leaf v := [v]
  op _ a b := a ++ b

theorem fold_leaves {toks : List Token} (st : List (List ℤ)) {n : ℕ}
    (h : toks.foldlM postfixHeight st.length = some n) :
    (toks.foldl (stackStep leafAlgebra) st).reverse.flatten =
      st.reverse.flatten ++ operands toks := by
  induction toks generalizing st with
  | nil => simp [operands]
  | cons tok toks ih =>
    rw [List.foldlM_cons, Option.bind_eq_bind, Option.bind_eq_some_iff] at h
    obtain ⟨m, hm, hrest⟩ := h
    rw [List.foldl_cons, ih _ (by rwa [stackStep_length leafAlgebra hm])]
    match tok, st with
    | .num digits, st => simp [stackStep, leafAlgebra, operands]
    | .op o, [] | .op o, [_] => simp [postfixHeight] at hm
    | .op o, b :: a :: st => simp [stackStep, leafAlgebra, operands]

local instance inhabitedOfRing {R : Type u} [Ring R] : Inhabited R := ⟨0⟩

section RingValues

variable {R : Type u} [Ring R] (ρ : ℤ → R)

def ringAlgebra : Algebra Op ℤ R where
  leaf := ρ
  op := applyOp

theorem fold_values {toks : List Token} (st : List R) {n : ℕ}
    (h : toks.foldlM postfixHeight st.length = some n) :
    toks.foldlM (postfixStep ρ) st = some (toks.foldl (stackStep (ringAlgebra ρ)) st) := by
  induction toks generalizing st with
  | nil => rfl
  | cons tok toks ih =>
    rw [List.foldlM_cons, Option.bind_eq_bind, Option.bind_eq_some_iff] at h
    obtain ⟨m, hm, hrest⟩ := h
    have hstep : postfixStep ρ st tok = some (stackStep (ringAlgebra ρ) st tok) := by
      match tok, st with
      | .num digits, st => rfl
      | .op o, [] | .op o, [_] => simp [postfixHeight] at hm
      | .op o, b :: a :: st => rfl
    rw [List.foldlM_cons, hstep]
    exact ih _ (by rwa [stackStep_length (ringAlgebra ρ) hm])

end RingValues

theorem toExpr?_eval {β : Type u} [Inhabited β] {A : Algebra Op ℤ β} {f : Expr → β}
    (hleaf : ∀ v, f (.operand v) = A.leaf v)
    (hop : ∀ o l r, f (.node o l r) = A.op o (f l) (f r)) {T : Tree ℕ Op ℤ} {e : Expr}
    (h : toExpr? T = some e) (st : List β) : T.eval A st = (f e, st) := by
  induction T generalizing e st with
  | hole => simp [toExpr?] at h
  | leaf i v =>
    obtain rfl := Option.some.inj h
    rw [hleaf]
    rfl
  | node i o l r ihl ihr =>
    simp only [toExpr?, Option.bind_eq_bind, Option.bind_eq_some_iff] at h
    obtain ⟨el, hl, er, hr, he⟩ := h
    obtain rfl := Option.some.inj he
    simp [Tree.eval, ihl hl, ihr hr, hop]

theorem exists_toExpr? {T : Tree ℕ Op ℤ} (h : T.holes = 0) : ∃ e, toExpr? T = some e := by
  induction T with
  | hole => simp [Tree.holes] at h
  | leaf i v => exact ⟨_, rfl⟩
  | node i o l r ihl ihr =>
    simp only [Tree.holes, Nat.add_eq_zero_iff] at h
    obtain ⟨el, hl⟩ := ihl h.1
    obtain ⟨er, hr⟩ := ihr h.2
    exact ⟨.node o el er, by simp [toExpr?, hl, hr]⟩

theorem Builds.meaning {toks : List Token} {T : Tree ℕ Op ℤ} (h : Builds toks T)
    (hwf : toks.foldlM postfixHeight 0 = some 1) :
    ∃ e, toExpr? T = some e ∧ e.leaves = operands toks ∧
      ∀ (R : Type u) [Ring R] (ρ : ℤ → R), postfixValue ρ toks = some (e.eval ρ) := by
  obtain ⟨e, he⟩ := exists_toExpr? (h.holes hwf)
  refine ⟨e, he, ?_, fun R _ ρ ↦ ?_⟩
  · obtain ⟨v, hv⟩ := List.length_eq_one_iff.mp (fold_length leafAlgebra [] hwf)
    have hflat := fold_leaves [] hwf
    have heval := h.eval leafAlgebra (fun a b c ↦ List.append_assoc a b c) []
    rw [toExpr?_eval (f := Expr.leaves) (fun _ ↦ rfl) (fun _ _ _ ↦ rfl) he, hv] at heval
    have hev : e.leaves = v := (Prod.ext_iff.mp heval).1
    rw [hv] at hflat
    simpa [hev] using hflat
  · obtain ⟨v, hv⟩ := List.length_eq_one_iff.mp (fold_length (ringAlgebra ρ) [] hwf)
    have hval := fold_values ρ [] hwf
    have heval := h.eval (ringAlgebra ρ) (fun a b c ↦ mul_assoc a b c) []
    rw [toExpr?_eval (f := Expr.eval ρ) (fun _ ↦ rfl) (fun _ _ _ ↦ rfl) he, hv] at heval
    have hev : e.eval ρ = v := (Prod.ext_iff.mp heval).1
    rw [hv] at hval
    simp [postfixValue, hval, hev]

end FheBlockchain.Computer.AstMeaning
