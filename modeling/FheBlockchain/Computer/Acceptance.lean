import FheBlockchain.Computer.AstBuild
import FheBlockchain.Computer.Expressions
import FheBlockchain.Library.Results

namespace FheBlockchain.Computer.Acceptance

open Ast AstMemory AstMeaning AstBuild Expressions Core.Transactions Library.HoleTree
open Library.Results

/-- Where a reader of an expression stands: before an operand or behind one, and
whether within a number. -/
structure Place where
  operandDue : Bool
  inNumber : Bool
deriving DecidableEq, Repr

def Place.next (p : Place) (byte : UInt8) : Option Place :=
  let c := Char.ofNat byte.toNat
  if c.isDigit then
    if p.inNumber || p.operandDue then some ⟨false, true⟩ else none
  else match c with
    | ' ' => some ⟨p.operandDue, false⟩
    | '(' => if p.operandDue then some ⟨true, false⟩ else none
    | ')' => if p.operandDue then none else some ⟨false, false⟩
    | '+' | '-' | '*' => if p.operandDue then none else some ⟨true, false⟩
    | _ => none

/-- Literals and opening parentheses stand where an operand is due, operators
and closing parentheses behind an operand, which also ends the expression. -/
def Orderly (expression : Bytes) : Prop :=
  ∃ inNumber, expression.foldlM Place.next ⟨true, false⟩ = some ⟨false, inNumber⟩

instance : DecidablePred Orderly := fun _ ↦ inferInstanceAs (Decidable (∃ _, _))

def overwrites (s : BuildState) : Bool :=
  match s.tree.root, insertionPoint s with
  | some _, .ok (some i, _) => (s.tree.nodes i).isFull
  | _, _ => false

/-- The run of `build_tree` on the rest of its input overwrites no child, is
only ended early by a literal above the range of `int`, and gives every operator
two children. -/
def Completes : BuildState → List Token → Prop
  | s, [] => ∀ i < s.tree.nodeCounter,
    (s.tree.nodes i).isLeaf = false → (s.tree.nodes i).isFull = true
  | s, tok :: toks => overwrites s = false ∧
    match buildStep s tok with
    | .ok s' => Completes s' toks
    | .error e => e = .literalOutOfRange

section Heights

def height (q : List Token) : Option ℕ := q.reverse.foldlM postfixHeight 0

def operators (stack : List Operator) : ℕ := stack.countP fun o ↦ o ≠ .paren

theorem height_cons (tok : Token) (q : List Token) :
    height (tok :: q) = (height q).bind fun h ↦ postfixHeight h tok := by
  rw [height, List.reverse_cons, List.foldlM_append]
  simp [height]

def Covered (q : List Token) (stack : List Operator) : Prop :=
  height q = some (operators stack + 1) ∧ ∀ tok ∈ q, isNumeral tok = true

theorem Covered.pop {q : List Token} {stack : List Operator} (h : Covered q stack) (p : Op → Bool) :
    Covered (popOperators p q stack).1 (popOperators p q stack).2 := by
  induction stack generalizing q with
  | nil => exact h
  | cons top stack ih =>
    cases top with
    | paren => exact h
    | op o =>
      rw [popOperators]
      split_ifs
      · refine ih ⟨?_, fun tok htok ↦ ?_⟩
        · rw [height_cons, h.1]
          simp [operators, postfixHeight]
        · rcases List.mem_cons.mp htok with rfl | htok
          · rfl
          · exact h.2 tok htok
      · exact h

theorem popOperators_all (q : List Token) (stack : List Operator) :
    (popOperators (fun _ ↦ true) q stack).2 = [] ∨
      ∃ rest, (popOperators (fun _ ↦ true) q stack).2 = .paren :: rest := by
  induction stack generalizing q with
  | nil => exact .inl rfl
  | cons top stack ih =>
    cases top with
    | paren => exact .inr ⟨stack, rfl⟩
    | op o => exact ih (.op o :: q)

end Heights

section Reading

variable {n : ℕ} {p p' : Place} {s s' : ShuntState} {token : UInt8 × ℕ}

/-- Before an operand each operator on the stack lacks one value. -/
structure Tracks (p : Place) (s : ShuntState) : Prop where
  foundNum : s.foundNum = p.inNumber
  number : p.inNumber = true → p.operandDue = false ∧ ∃ digits rest, s.outputQ = .num digits :: rest
  numerals : ∀ tok ∈ s.outputQ, isNumeral tok = true
  height : height s.outputQ = some (operators s.operatorStack + if p.operandDue then 0 else 1)

theorem Tracks.covered (h : Tracks p s) (hdue : p.operandDue = false) :
    Covered s.outputQ s.operatorStack :=
  ⟨by simpa [hdue] using h.height, h.numerals⟩

theorem Tracks.digit {c : Char} (h : Tracks p s) (hc : c.isDigit = true)
    (hp : (p.inNumber || p.operandDue) = true) : Tracks ⟨false, true⟩ (shuntDigit s c) := by
  have hheight := h.height
  have hnumerals := h.numerals
  cases hin : p.inNumber with
  | true =>
    obtain ⟨hdue, digits, rest, hq⟩ := h.number hin
    rw [hq, List.forall_mem_cons] at hnumerals
    rw [hq, height_cons, hdue] at hheight
    have hstep : shuntDigit s c = { s with
        outputQ := .num (digits ++ [c]) :: rest, foundOperationOperator := false } := by
      simp only [shuntDigit, h.foundNum.trans hin, hq]
    rw [hstep]
    refine ⟨h.foundNum.trans hin, fun _ ↦ ⟨rfl, _, _, rfl⟩,
      List.forall_mem_cons.mpr ⟨?_, hnumerals.2⟩, ?_⟩
    · have hdigits := hnumerals.1
      simp only [isNumeral, Bool.and_eq_true] at hdigits
      simp [isNumeral, hc, hdigits.2]
    · rw [height_cons]
      exact hheight
  | false =>
    have hdue : p.operandDue = true := by simpa [hin] using hp
    rw [hdue] at hheight
    have hstep : shuntDigit s c = { s with
        outputQ := .num [c] :: s.outputQ, foundNum := true, foundOperationOperator := false } := by
      simp only [shuntDigit, h.foundNum.trans hin]
    rw [hstep]
    refine ⟨rfl, fun _ ↦ ⟨rfl, _, _, rfl⟩, List.forall_mem_cons.mpr ⟨?_, hnumerals⟩, ?_⟩
    · simp [isNumeral, hc]
    · simp [height_cons, hheight, postfixHeight]

theorem Tracks.close (h : Tracks p s) (hdue : p.operandDue = false)
    (hstep : shuntClose { s with foundNum := false } = .ok s') : Tracks ⟨false, false⟩ s' := by
  have hpop := (h.covered hdue).pop fun _ ↦ true
  rw [shuntClose] at hstep
  rcases popOperators_all s.outputQ s.operatorStack with hstack | ⟨rest, hstack⟩
  · split at hstep
    · cases hstep
    next heq =>
      rw [heq] at hstack
      cases hstack
  · split at hstep
    · cases hstep
    next q top stack heq =>
      rw [heq] at hstack hpop
      obtain ⟨rfl, rfl⟩ := List.cons.inj hstack
      obtain rfl := Except.ok.inj hstep
      refine ⟨rfl, by simp, hpop.2, ?_⟩
      simpa [operators] using hpop.1

theorem Tracks.operator {o : Op} {outermost : Bool} (h : Tracks p s) (hdue : p.operandDue = false)
    (hstep : shuntOperator o outermost { s with foundNum := false } = .ok s') :
    Tracks ⟨true, false⟩ s' := by
  have hpop := (h.covered hdue).pop fun top ↦ precedence o ≤ precedence top
  rw [shuntOperator] at hstep
  split_ifs at hstep
  obtain rfl := Except.ok.inj hstep
  refine ⟨rfl, by simp, hpop.2, ?_⟩
  rw [hpop.1]
  simp [operators]

theorem Tracks.step (h : Tracks p s) (hnext : p.next token.1 = some p')
    (hstep : shuntStep n s token = .ok s') : Tracks p' s' := by
  simp only [Place.next] at hnext
  simp only [shuntStep] at hstep
  generalize Char.ofNat token.1.toNat = c at hnext hstep
  by_cases hc : c.isDigit = true
  · rw [if_pos hc] at hnext hstep
    obtain rfl := Except.ok.inj hstep
    split_ifs at hnext with hp
    obtain rfl := Option.some.inj hnext
    exact h.digit hc hp
  rw [if_neg hc] at hnext hstep
  split at hnext
  · obtain rfl := Option.some.inj hnext
    obtain rfl := Except.ok.inj hstep
    exact ⟨rfl, by simp, h.numerals, h.height⟩
  · split_ifs at hnext with hdue
    obtain rfl := Option.some.inj hnext
    obtain rfl := Except.ok.inj hstep
    refine ⟨rfl, by simp, h.numerals, ?_⟩
    rw [h.height, hdue]
    simp [operators]
  · split_ifs at hnext with hdue
    obtain rfl := Option.some.inj hnext
    exact h.close (Bool.eq_false_iff.mpr hdue) hstep
  iterate 3
    · split_ifs at hnext with hdue
      obtain rfl := Option.some.inj hnext
      exact h.operator (Bool.eq_false_iff.mpr hdue) hstep
  · cases hnext

theorem Tracks.run {tokens : List (UInt8 × ℕ)} (h : Tracks p s)
    (hnext : (tokens.map Prod.fst).foldlM Place.next p = some p')
    (hrun : tokens.foldlM (shuntStep n) s = .ok s') : Tracks p' s' := by
  induction tokens generalizing p s with
  | nil =>
    obtain rfl := Option.some.inj hnext
    obtain rfl := Except.ok.inj hrun
    exact h
  | cons token tokens ih =>
    rw [List.map_cons, List.foldlM_cons] at hnext
    rw [List.foldlM_cons, bind_eq_ok] at hrun
    obtain ⟨p₁, hp₁, hnext⟩ := Option.bind_eq_some_iff.mp hnext
    obtain ⟨s₁, hs₁, hrun⟩ := hrun
    exact ih (h.step hp₁ hs₁) hnext hrun

theorem shunt_wellFormed {expression : Bytes} {q : List Token} (h : Orderly expression)
    (hq : shunt expression = .ok q) : WellFormed q := by
  obtain ⟨inNumber, hplace⟩ := h
  rw [shunt, bind_eq_ok] at hq
  obtain ⟨s, hrun, hq⟩ := hq
  have hinit : Tracks ⟨true, false⟩ .init := ⟨rfl, by simp, by simp [ShuntState.init], rfl⟩
  have hplace' : (expression.zipIdx.map Prod.fst).foldlM Place.next ⟨true, false⟩ =
      some ⟨false, inNumber⟩ := by rwa [List.zipIdx_map_fst]
  have hpop := ((hinit.run hplace' hrun).covered rfl).pop fun _ ↦ true
  split_ifs at hq
  · cases hq
  · dsimp only at hq
    split at hq
    next q' heq =>
      rw [heq] at hpop
      obtain rfl := Except.ok.inj hq
      exact ⟨by simpa [height, operators] using hpop.1, by simpa using hpop.2⟩
    · cases hq

end Reading

section Building

variable {s : BuildState} {T : Tree ℕ Op ℤ} {done toks : List Token} {tok : Token}

theorem builds_length (h : Builds toks T) : T.ids.length = toks.length := by
  induction h with
  | nil => rfl
  | @cons toks T c i tok _ _ hT ih =>
    have hplug := (c.ids_plug (tokenTree i tok)).length_eq
    have hhole := (c.ids_plug .hole).length_eq
    have htok : (tokenTree i tok).ids.length = 1 := by cases tok <;> rfl
    rw [List.length_append] at hplug hhole
    rw [hT.ids_perm.length_eq, List.length_cons, ← ih, hplug, hhole, htok, Tree.ids,
      List.length_nil]
    omega

theorem full_of_linked {nodes : ℕ → ASTNode} {i : ℕ} (h : Linked nodes T) (hfull : T.holes = 0)
    (hi : i ∈ T.ids) (hleaf : (nodes i).isLeaf = false) : (nodes i).isFull = true := by
  have hsome {T : Tree ℕ Op ℤ} (h : T.holes = 0) : T.root.isSome = true := by
    cases T with
    | hole => cases h
    | leaf i v | node i o l r => rfl
  induction T with
  | hole => cases hi
  | leaf j v =>
    obtain rfl := List.mem_singleton.mp hi
    rw [h.1] at hleaf
    cases hleaf
  | node j o l r ihl ihr =>
    obtain ⟨-, hl, hr, hll, hlr⟩ := h
    obtain ⟨hfl, hfr⟩ := Nat.add_eq_zero_iff.mp hfull
    rcases List.mem_cons.mp hi with rfl | hi
    · rw [ASTNode.isFull, hl, hr, hsome hfl, hsome hfr, Bool.and_self]
    · exact (List.mem_append.mp hi).elim (ihl hll hfl) (ihr hlr hfr)

theorem dropFull_free {nodes : ℕ → ASTNode} {st stack : List ℕ} {i : ℕ}
    (h : dropFull nodes st = .ok (i, stack)) : (nodes i).isFull = false := by
  induction st with
  | nil => cases h
  | cons j st ih =>
    rw [dropFull] at h
    split_ifs at h with hj
    · exact ih h
    · obtain ⟨rfl, -⟩ := Prod.ext_iff.mp (Except.ok.inj h)
      exact Bool.eq_false_iff.mpr hj

theorem built_point (h : Built s done T) (hi : insertionCurrent s = true) :
    overwrites s = false ∧ ∃ curr stack, insertionPoint s = .ok (curr, stack) := by
  by_cases hT : T = .hole
  · have hroot : s.tree.root = none := by rw [← h.root, hT, Tree.root]
    rw [overwrites, hroot]
    exact ⟨rfl, s.currNode, [], by rw [insertionPoint, h.stack hT]⟩
  · obtain ⟨i, stack, -, hpoint, hdrop⟩ := h.point hT hi
    obtain ⟨k, hk⟩ := h.root_isSome hT
    rw [overwrites, hk, hpoint]
    exact ⟨dropFull_free hdrop, _, _, rfl⟩

theorem buildStep_outOfRange (h : Built s done T) (hi : insertionCurrent s = true)
    (hnum : isNumeral tok = true) (hfit : fitsInt tok = false) :
    buildStep s tok = .error .literalOutOfRange := by
  obtain ⟨-, curr, stack, hpoint⟩ := built_point h hi
  cases tok with
  | op o => cases hfit
  | num digits =>
    have hstoi : stoi digits = .error .literalOutOfRange := by
      simp only [isNumeral, fitsInt, Bool.and_eq_true, decide_eq_true_eq, decide_eq_false_iff_not]
        at hnum hfit
      rw [stoi, if_neg (by simp [hnum.1, hnum.2]), if_neg hfit]
    simp [buildStep, hpoint, makeNode, hstoi, bind, Except.bind]

theorem completes_built (h : Built s done T) (hcount : s.tree.nodeCounter = done.length)
    (hnum : ∀ tok ∈ toks, isNumeral tok = true) (hrun : runCurrent s toks = true)
    (hheight : (toks.reverse ++ done).foldlM postfixHeight 0 = some 1) : Completes s toks := by
  induction toks generalizing s done T with
  | nil =>
    intro i hi hleaf
    have hfull : T.holes = 0 := h.builds.holes hheight
    have hall : i ∈ T.ids := by
      have hsub : T.ids ⊆ List.range s.tree.nodeCounter := fun j hj ↦
        List.mem_range.mpr (h.rep.fresh j hj)
      have hperm := (List.subperm_of_subset h.rep.nodup hsub).perm_of_length_le
        (by rw [List.length_range, hcount, builds_length h.builds])
      exact hperm.mem_iff.mpr (List.mem_range.mpr hi)
    exact full_of_linked h.rep.linked hfull hall hleaf
  | cons tok toks ih =>
    simp only [runCurrent, Bool.and_eq_true] at hrun
    refine ⟨(built_point h hrun.1.1).1, ?_⟩
    cases hfit : fitsInt tok with
    | false => rw [buildStep_outOfRange h hrun.1.1 (hnum tok (by simp)) hfit]
    | true =>
      obtain ⟨s₁, T₁, hstep, h₁, hnext⟩ :=
        buildStep_built h ⟨hnum tok (by simp), hfit⟩ hrun.1.1 hrun.1.2
      rw [hstep] at hrun ⊢
      refine ih h₁ (by rw [hnext, hcount, List.length_cons]) (fun t ht ↦ hnum t (by simp [ht]))
        hrun.2 ?_
      rwa [List.reverse_cons, List.append_assoc] at hheight

end Building

/-- An orderly expression that `shunt` accepts is a complete one, and the
construction of its tree goes well if all its tokens and rotations find the
links they rely on up to date. -/
theorem accepted_complete (expression : Bytes) {q : List Token} (hq : shunt expression = .ok q)
    (horderly : Orderly expression) (hrun : runCurrent .init q.reverse = true) :
    WellFormed q ∧ Completes .init q.reverse := by
  have hwf := shunt_wellFormed horderly hq
  refine ⟨hwf, completes_built Built.init rfl ?_ hrun ?_⟩
  · exact fun tok htok ↦ hwf.2 tok (List.mem_reverse.mp htok)
  · rw [List.reverse_reverse, List.append_nil]
    exact hwf.1

section Sample

/-- `(0+1)*2*(3-4)` -/
theorem accepted_complete_sample : ∃ q,
    shunt "(0+1)*2*(3-4)".toUTF8.toList = .ok q ∧ WellFormed q ∧ Completes .init q.reverse := by
  have hq : shunt "(0+1)*2*(3-4)".toUTF8.toList = .ok [.num ['0'], .num ['1'], .op .add, .num ['2'],
      .op .mul, .num ['3'], .num ['4'], .op .sub, .op .mul] := by decide +kernel
  exact ⟨_, hq, accepted_complete _ hq (by decide +kernel) (by decide +kernel)⟩

/-- The operator at the end is followed by a space, so that its position is not
the last one. -/
theorem dangling_operator_accepted : ¬ ∀ (expression : Bytes) (q : List Token),
    shunt expression = .ok q → WellFormed q ∧ Completes .init q.reverse := by
  intro h
  have hq : shunt "1 + ".toUTF8.toList = .ok [.num ['1'], .op .add] := by decide +kernel
  exact absurd (h _ _ hq).1 (by decide)

end Sample

end FheBlockchain.Computer.Acceptance
