import FheBlockchain.Computer.AstMemory
import FheBlockchain.Core.Transactions

namespace FheBlockchain.Computer.Leveling

open Ast AstMemory Core.Transactions Library.HoleTree
open Library.Execution (Exec run_bind_get run_bind_set)

variable {C : Type}

structure Operations (C : Type) where
  relinearize : C → C
  rescale : C → C
  evalAdd : C → C → C
  evalSub : C → C → C
  evalMultNoRelin : C → C → C

/-- What `eval` reads. `stopFlag` says at which of its checks the flag is set. -/
structure FHEComputer (C : Type) where
  ciphertexts : List C
  cryptoContext : Operations C
  ps : Operations C
  stopFlag : ℕ → Bool
  nodes : ℕ → ASTNode

structure Call (C : Type) where
  op : Op
  left : C
  right : C

/-- The checks of the stop flag so far, and the calls, the first one first. -/
structure Progress (C : Type) where
  checks : ℕ
  calls : List (Call C)

abbrev M (C : Type) := Exec Exception Undefined (Progress C)

def Operations.align (ops : Operations C) : ℕ → C → C
  | 0, target => target
  | depthDiff + 1, target => ops.align depthDiff (ops.rescale (ops.relinearize target))

def Operations.meet (ops : Operations C) (leftDepth rightDepth : ℤ) (left right : C) : C × C :=
  let depthDiff := leftDepth - rightDepth
  if depthDiff = 0 then (left, right)
  else if depthDiff > 0 then (left, ops.align depthDiff.natAbs right)
  else (ops.align depthDiff.natAbs left, right)

def Operations.call (ops : Operations C) (op : Op) (left right : C) : M C C := do
  modify fun s ↦ { s with calls := s.calls ++ [⟨op, left, right⟩] }
  return match op with
    | .add => ops.evalAdd left right
    | .sub => ops.evalSub left right
    | .mul => ops.evalMultNoRelin left right

namespace FHEComputer

variable (e : FHEComputer C)

def operations (evalMode : Bool) : Operations C := if evalMode then e.cryptoContext else e.ps

def ciphertext (val : ℤ) : Option C := if val < 0 then none else e.ciphertexts[val.toNat]?

def checkStopFlag : M C Unit := do
  let s ← get
  set { s with checks := s.checks + 1 }
  if e.stopFlag s.checks then throw (outOfRange "stop flag")

/-- The first argument bounds the recursion through the child pointers. -/
def eval (evalMode : Bool) : ℕ → ℕ → M C C
  | 0, _ => throw (.abort .stackOverflow)
  | fuel + 1, node => do
    e.checkStopFlag
    if (e.nodes node).isLeaf then
      match e.ciphertext (e.nodes node).val with
      | some c => return c
      | none => throw (outOfRange "vector::_M_range_check")
    else
      match (e.nodes node).leftChild, (e.nodes node).rightChild with
      | some leftChild, some rightChild => do
        let left ← eval evalMode fuel leftChild
        let right ← eval evalMode fuel rightChild
        let ops := e.operations evalMode
        let (left, right) :=
          ops.meet (e.nodes leftChild).depth (e.nodes rightChild).depth left right
        match (e.nodes node).op with
        | some op => ops.call op left right
        | none => throw (invalidArgument "Invalid op in ASTNode.")
      | _, _ => throw (runtimeError "Internal ASTNode should have both chldren.")

end FHEComputer

def callsOf (x : M C C) : List (Call C) :=
  match x ⟨0, []⟩ with
  | .ok _ s | .error _ s => s.calls

/-- `Rescale` raises the level by one, and everything else keeps the level that
its operands have in common. -/
structure Leveled (level : C → ℕ) (ops : Operations C) : Prop where
  relinearize : ∀ c, level (ops.relinearize c) = level c
  rescale : ∀ c, level (ops.rescale c) = level c + 1
  evalAdd : ∀ a b, level a = level b → level (ops.evalAdd a b) = level a
  evalSub : ∀ a b, level a = level b → level (ops.evalSub a b) = level a
  evalMultNoRelin : ∀ a b, level a = level b → level (ops.evalMultNoRelin a b) = level a

section Condition

variable (e : FHEComputer C)

/-- The checks of the stop flag that have been made when the tree is evaluated,
unless the flag or a missing ciphertext ends the evaluation in it. -/
def checksAfter : ℕ → Tree ℕ Op ℤ → Option ℕ
  | k, .hole => some k
  | k, .leaf _ v => if !e.stopFlag k && (e.ciphertext v).isSome then some (k + 1) else none
  | k, .node _ _ l r =>
    if e.stopFlag k then none else (checksAfter (k + 1) l).bind fun k' ↦ checksAfter k' r

/-- The operands of every operator have the same multiplicative depth, except
where the evaluation ends before both are there. -/
def SameDepths : ℕ → Tree ℕ Op ℤ → Prop
  | _, .hole | _, .leaf _ _ => True
  | k, .node _ _ l r => e.stopFlag k = false → SameDepths (k + 1) l ∧
    ∀ k' ∈ checksAfter e (k + 1) l, SameDepths k' r ∧
      ((checksAfter e k' r).isSome → multDepth l = multDepth r)

end Condition

section Levels

variable {level : C → ℕ} {ops : Operations C}

theorem Leveled.align (h : Leveled level ops) (n : ℕ) (c : C) :
    level (ops.align n c) = level c + n := by
  induction n generalizing c with
  | zero => rfl
  | succ n ih =>
    rw [Operations.align, ih, h.rescale, h.relinearize]
    omega

/-- Two operands of level 0 stay together only where nothing is to be aligned,
since a product does not raise the level. -/
theorem Leveled.meet (h : Leveled level ops) {left right : C} (hl : level left = 0)
    (hr : level right = 0) (m n : ℕ) :
    (level (ops.meet m n left right).1 = level (ops.meet m n left right).2 ↔ m = n) ∧
      (m = n → ops.meet m n left right = (left, right)) := by
  rw [Operations.meet]
  split_ifs with heq hgt
  · have hmn : m = n := by omega
    exact ⟨⟨fun _ ↦ hmn, fun _ ↦ hl.trans hr.symm⟩, fun _ ↦ rfl⟩
  · have hmn : m ≠ n := by omega
    have hlevel := h.align ((m : ℤ) - n).natAbs right
    refine ⟨⟨fun he ↦ ?_, fun he ↦ absurd he hmn⟩, fun he ↦ absurd he hmn⟩
    dsimp only at he
    omega
  · have hmn : m ≠ n := by omega
    have hlevel := h.align ((m : ℤ) - n).natAbs left
    refine ⟨⟨fun he ↦ ?_, fun he ↦ absurd he hmn⟩, fun he ↦ absurd he hmn⟩
    dsimp only at he
    omega

theorem Leveled.call (h : Leveled level ops) (op : Op) (left right : C) (k : ℕ)
    (calls : List (Call C)) :
    ∃ c, ops.call op left right ⟨k, calls⟩ = .ok c ⟨k, calls ++ [⟨op, left, right⟩]⟩ ∧
      (level left = level right → level c = level left) := by
  cases op with
  | add => exact ⟨_, rfl, h.evalAdd left right⟩
  | sub => exact ⟨_, rfl, h.evalSub left right⟩
  | mul => exact ⟨_, rfl, h.evalMultNoRelin left right⟩

end Levels

section Evaluation

variable {e : FHEComputer C} {level : C → ℕ} {evalMode : Bool} {fuel node : ℕ} {T l r : Tree ℕ Op ℤ}
variable {k : ℕ} {calls : List (Call C)}

def Call.Meets (level : C → ℕ) (call : Call C) : Prop := level call.left = level call.right

def Evaluates (e : FHEComputer C) (level : C → ℕ) (k : ℕ) (T : Tree ℕ Op ℤ) (calls : List (Call C))
    (x : EStateM.Result Failure (Progress C) C) : Prop :=
  ∃ new, ((∀ call ∈ new, call.Meets level) ↔ SameDepths e k T) ∧
    ((∃ k' c, checksAfter e k T = some k' ∧ x = .ok c ⟨k', calls ++ new⟩ ∧
        (SameDepths e k T → level c = 0)) ∨
      checksAfter e k T = none ∧ ∃ err k', x = .error err ⟨k', calls ++ new⟩)

theorem checkStopFlag_run : e.checkStopFlag ⟨k, calls⟩ =
    if e.stopFlag k then .error (outOfRange "stop flag") ⟨k + 1, calls⟩
    else .ok ⟨⟩ ⟨k + 1, calls⟩ := by
  rw [FHEComputer.checkStopFlag, run_bind_get, run_bind_set]
  split_ifs <;> rfl

theorem eval_stopped (hstop : e.stopFlag k = true) :
    e.eval evalMode (fuel + 1) node ⟨k, calls⟩ = .error (outOfRange "stop flag") ⟨k + 1, calls⟩ := by
  simp only [FHEComputer.eval, bind, EStateM.bind, checkStopFlag_run, hstop, if_true]

theorem eval_leaf (hstop : e.stopFlag k = false) (hleaf : (e.nodes node).isLeaf = true) :
    e.eval evalMode (fuel + 1) node ⟨k, calls⟩ = match e.ciphertext (e.nodes node).val with
      | some c => .ok c ⟨k + 1, calls⟩
      | none => .error (outOfRange "vector::_M_range_check") ⟨k + 1, calls⟩ := by
  simp only [FHEComputer.eval, bind, EStateM.bind, checkStopFlag_run, hstop, hleaf, if_true]
  cases e.ciphertext (e.nodes node).val <;> rfl

theorem eval_node {leftChild rightChild : ℕ} {op : Op} (hstop : e.stopFlag k = false)
    (hleaf : (e.nodes node).isLeaf = false) (hl : (e.nodes node).leftChild = some leftChild)
    (hr : (e.nodes node).rightChild = some rightChild) (hop : (e.nodes node).op = some op) :
    e.eval evalMode (fuel + 1) node ⟨k, calls⟩ = (do
      let left ← e.eval evalMode fuel leftChild
      let right ← e.eval evalMode fuel rightChild
      let ops := e.operations evalMode
      let operands :=
        ops.meet (e.nodes leftChild).depth (e.nodes rightChild).depth left right
      ops.call op operands.1 operands.2 : M C C) ⟨k + 1, calls⟩ := by
  simp only [FHEComputer.eval, bind, EStateM.bind, checkStopFlag_run, hstop, hleaf, hl, hr, hop]
  rfl

theorem root_of_full (h : T.holes = 0) : ∃ i, T.root = some i := by
  cases T with
  | hole => cases h
  | leaf i v | node i o l r => exact ⟨i, rfl⟩

theorem eval_run (hops : Leveled level (e.operations evalMode))
    (hinputs : ∀ c ∈ e.ciphertexts, level c = 0) (hlinked : Linked e.nodes T)
    (hfull : T.holes = 0) (hdepths : DepthsCached e.nodes T) (hroot : T.root = some node)
    (hfuel : T.ids.length ≤ fuel) :
    Evaluates e level k T calls (e.eval evalMode fuel node ⟨k, calls⟩) := by
  induction T generalizing node fuel k calls with
  | hole => cases hroot
  | leaf i v =>
    obtain rfl := Option.some.inj hroot
    obtain ⟨hleaf, ⟨-, hval⟩, -, -⟩ := hlinked
    obtain ⟨fuel, rfl⟩ := Nat.exists_eq_add_of_le' hfuel
    refine ⟨[], by simp [SameDepths], ?_⟩
    rw [Tree.ids, List.length_singleton, List.append_nil, checksAfter]
    cases hstop : e.stopFlag k with
    | true =>
      exact .inr ⟨rfl, _, _, eval_stopped hstop⟩
    | false =>
      rw [eval_leaf hstop hleaf, hval]
      cases hc : e.ciphertext v with
      | none => exact .inr ⟨rfl, _, _, rfl⟩
      | some c =>
        refine .inl ⟨k + 1, c, rfl, rfl, fun _ ↦ hinputs c ?_⟩
        rw [FHEComputer.ciphertext] at hc
        split_ifs at hc
        exact List.mem_of_getElem? hc
  | node i o l r ihl ihr =>
    obtain rfl := Option.some.inj hroot
    obtain ⟨⟨hleaf, hop⟩, hlc, hrc, hll, hlr⟩ := hlinked
    obtain ⟨hfl, hfr⟩ := Nat.add_eq_zero_iff.mp hfull
    obtain ⟨-, hdl, hdr⟩ := hdepths
    obtain ⟨left, hleft⟩ := root_of_full hfl
    obtain ⟨right, hright⟩ := root_of_full hfr
    rw [Tree.ids, List.length_cons, List.length_append] at hfuel
    obtain ⟨fuel, rfl⟩ := Nat.exists_eq_add_of_le' (show 1 ≤ fuel by omega)
    rw [Evaluates, SameDepths, checksAfter]
    cases hstop : e.stopFlag k with
    | true =>
      exact ⟨[], by simp, .inr ⟨rfl, _, _, by rw [eval_stopped hstop, List.append_nil]⟩⟩
    | false =>
      rw [eval_node hstop hleaf (hlc.trans hleft) (hrc.trans hright) hop, if_neg Bool.false_ne_true]
      simp only [true_imp_iff, bind, EStateM.bind]
      have hl := @ihl fuel left (k + 1) calls hll hfl hdl hleft (by omega)
      obtain ⟨newl, hmeetl, ⟨k₁, cl, hcl, hxl, hlevl⟩ | ⟨hcl, err, k₁, hxl⟩⟩ := hl
      · have hr := @ihr fuel right k₁ (calls ++ newl) hlr hfr hdr hright (by omega)
        obtain ⟨newr, hmeetr, ⟨k₂, cr, hcr, hxr, hlevr⟩ | ⟨hcr, err, k₂, hxr⟩⟩ := hr
        · have hmeet := fun hsl hsr ↦
            hops.meet (hlevl hsl) (hlevr hsr) (multDepth l) (multDepth r)
          rw [hxl]
          simp only [hxr, DepthsCached.root hdl hleft, DepthsCached.root hdr hright]
          set operands := (e.operations evalMode).meet (multDepth l) (multDepth r) cl cr
          obtain ⟨c, hcall, hlevc⟩ := hops.call o operands.1 operands.2 k₂ (calls ++ newl ++ newr)
          have hcond : (∀ k' ∈ checksAfter e (k + 1) l, SameDepths e k' r ∧
              ((checksAfter e k' r).isSome → multDepth l = multDepth r)) ↔
              SameDepths e k₁ r ∧ multDepth l = multDepth r := by
            simp [hcl, hcr]
          rw [hcond]
          refine ⟨newl ++ newr ++ [⟨o, operands.1, operands.2⟩], ?_, .inl ⟨k₂, c, ?_, ?_, ?_⟩⟩
          · simp only [List.mem_append, List.mem_singleton, or_imp, forall_and, forall_eq, hmeetl,
              hmeetr, and_assoc]
            exact and_congr_right fun hsl ↦ and_congr_right fun hsr ↦ (hmeet hsl hsr).1
          · rw [hcl, Option.bind_some, hcr]
          · rw [hcall, List.append_assoc, List.append_assoc, List.append_assoc]
          · rintro ⟨hsl, hsr, heq⟩
            have hoperands : operands = (cl, cr) := (hmeet hsl hsr).2 heq
            rw [hlevc (((hmeet hsl hsr).1).mpr heq), hoperands]
            exact hlevl hsl
        · refine ⟨newl ++ newr, ?_, .inr ⟨?_, err, k₂, ?_⟩⟩
          · simp [hcl, hcr, or_imp, forall_and, hmeetl, hmeetr]
          · rw [hcl, Option.bind_some, hcr]
          · simp only [hxl, hxr, List.append_assoc]
      · refine ⟨newl, ?_, .inr ⟨?_, err, k₁, ?_⟩⟩
        · simp [hcl, hmeetl]
        · rw [hcl, Option.bind_none]
        · simp only [hxl]

/-- In an evaluation of a complete tree with the right depths the operands of
every call have the same level if and only if the two subtrees of every operator
that is evaluated have the same depth. -/
theorem operands_meet_iff (hcc : Leveled level e.cryptoContext) (hps : Leveled level e.ps)
    (hinputs : ∀ c ∈ e.ciphertexts, level c = 0) (hlinked : Linked e.nodes T)
    (hfull : T.holes = 0) (hdepths : DepthsCached e.nodes T) (hroot : T.root = some node)
    (hfuel : T.ids.length ≤ fuel) (evalMode : Bool) :
    (∀ call ∈ callsOf (e.eval evalMode fuel node), level call.left = level call.right) ↔
      SameDepths e 0 T := by
  have hops : Leveled level (e.operations evalMode) := by
    cases evalMode
    · exact hps
    · exact hcc
  obtain ⟨new, hmeet, ⟨k, c, -, hx, -⟩ | ⟨-, err, k, hx⟩⟩ :=
    @eval_run C e level evalMode fuel node T 0 [] hops hinputs hlinked hfull hdepths hroot hfuel
  · rw [callsOf, hx]
    exact hmeet
  · rw [callsOf, hx]
    exact hmeet

end Evaluation

section Sample

def levelOperations : Operations ℕ where
  relinearize c := c
  rescale c := c + 1
  evalAdd := max
  evalSub := max
  evalMultNoRelin := max

theorem leveled_levelOperations : Leveled id levelOperations where
  relinearize _ := rfl
  rescale _ := rfl
  evalAdd _ _ h := max_eq_left h.ge
  evalSub _ _ h := max_eq_left h.ge
  evalMultNoRelin _ _ h := max_eq_left h.ge

def built (toks : List Token) : ℕ → ASTNode :=
  match buildTree toks with
  | .ok t => t.nodes
  | .error _ => fun _ ↦ default

def sampleComputer (toks : List Token) : FHEComputer ℕ where
  ciphertexts := [0, 0, 0, 0]
  cryptoContext := levelOperations
  ps := levelOperations
  stopFlag _ := false
  nodes := built toks

def sumOfProducts : List Token :=
  [.num ['0'], .num ['1'], .op .mul, .num ['2'], .num ['3'], .op .mul, .op .add]

def sumOfProductsTree : Tree ℕ Op ℤ :=
  .node 0 .add (.node 4 .mul (.leaf 6 0) (.leaf 5 1)) (.node 1 .mul (.leaf 3 2) (.leaf 2 3))

theorem operands_meet_sumOfProducts :
    (callsOf ((sampleComputer sumOfProducts).eval true 7 0)).length = 3 ∧
      ∀ call ∈ callsOf ((sampleComputer sumOfProducts).eval true 7 0), call.left = call.right := by
  have hsame : SameDepths (sampleComputer sumOfProducts) 0 sumOfProductsTree := by
    simp [sumOfProductsTree, SameDepths, multDepth, Tree.weight]
  have hlinked : Linked (sampleComputer sumOfProducts).nodes sumOfProductsTree := by decide +kernel
  refine ⟨by decide +kernel, ?_⟩
  exact (operands_meet_iff leveled_levelOperations leveled_levelOperations (by decide) hlinked rfl
    (by decide +kernel) rfl (le_refl 7) true).mpr hsame

/-- The product in 0 * 1 + 2 is not rescaled, but 2 is. -/
theorem operands_part : ¬ ∀ (C : Type) (e : FHEComputer C) (level : C → ℕ) (T : Tree ℕ Op ℤ)
    (node fuel : ℕ) (evalMode : Bool), Leveled level e.cryptoContext → Leveled level e.ps →
    (∀ c ∈ e.ciphertexts, level c = 0) → Linked e.nodes T → T.holes = 0 →
    DepthsCached e.nodes T → T.root = some node → T.ids.length ≤ fuel →
    ∀ call ∈ callsOf (e.eval evalMode fuel node), level call.left = level call.right := by
  intro h
  let e := sampleComputer [.num ['0'], .num ['1'], .op .mul, .num ['2'], .op .add]
  have hcalls : ∀ call ∈ callsOf (e.eval true 5 0), call.left = call.right :=
    h ℕ e id (.node 0 .add (.node 2 .mul (.leaf 4 0) (.leaf 3 1)) (.leaf 1 2)) 0 5 true
      leveled_levelOperations leveled_levelOperations (by decide) (by decide +kernel) rfl
      (by decide +kernel) rfl (by decide)
  have hpart : ¬ ∀ call ∈ callsOf (e.eval true 5 0), call.left = call.right := by decide +kernel
  exact hpart hcalls

end Sample

end FheBlockchain.Computer.Leveling
