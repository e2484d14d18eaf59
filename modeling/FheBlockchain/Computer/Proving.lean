import FheBlockchain.Computer.Leveling
import FheBlockchain.Computer.Messages
import FheBlockchain.Computer.Padding

namespace FheBlockchain.Computer.Proving

open Core.Transactions Ast Computations Binding Expressions Messages Padding
open Library.Execution Library.Results

abbrev Step (B : Type) := Exec Exception Undefined B

structure Operations (B C : Type) where
  relinearize : C → Step B C
  rescale : C → Step B C
  evalAdd : C → C → Step B C
  evalSub : C → C → Step B C
  evalMultNoRelin : C → C → Step B C

structure Context (C : Type) where
  relinearize : C → Result C
  rescale : C → Result C
  evalAdd : C → C → Result C
  evalSub : C → C → Result C
  evalMultNoRelin : C → C → Result C

def Context.operations {B C : Type} (context : Context C) : Operations B C where
  relinearize c := Exec.ofExcept (context.relinearize c)
  rescale c := Exec.ofExcept (context.rescale c)
  evalAdd a b := Exec.ofExcept (context.evalAdd a b)
  evalSub a b := Exec.ofExcept (context.evalSub a b)
  evalMultNoRelin a b := Exec.ofExcept (context.evalMultNoRelin a b)

/-- What is taken from OpenFHE, zkOpenFHE and libiop. `V` are the variables of the
declared output, and a proof is what the prover's argument serializes to. -/
structure Libraries (fhe : OpenFhe) (B V F : Type) [CommSemiring F] where
  context : fhe.CryptoContext → Context fhe.Ciphertext
  create : fhe.CryptoContext → B
  publicInput : fhe.Ciphertext → Step B Unit
  constrainPublicOutput : fhe.Ciphertext → Step B V
  ps : Operations B fhe.Ciphertext
  finalizeOutputConstraints : fhe.Ciphertext → V → Step B Unit
  constraintSystem : B → R1csConstraintSystem F
  primaryInput : B → List F
  auxiliaryInput : B → List F
  libiop : Libiop F
  prover : R1csConstraintSystem F → List F → List F → Bytes
  verifier : R1csConstraintSystem F → List F → Bytes → Result Bool

/-- A computer at work. Nothing reads the board of the proof system before
`generate_constraints` has set up one. -/
structure Machine (fhe : OpenFhe) (B : Type) where
  computer : FHEComputer fhe
  checks : ℕ
  seen : List ℤ
  board : B

abbrev M (fhe : OpenFhe) (B : Type) := Exec Exception Undefined (Machine fhe B)

variable {fhe : OpenFhe} {B V F : Type} [CommSemiring F]

def onBoard {α : Type} (x : Step B α) : M fhe B α :=
  Exec.focus Machine.board (fun m board ↦ { m with board := board }) x

def Operations.align {C : Type} (ops : Operations B C) : ℕ → C → Step B C
  | 0, target => return target
  | depthDiff + 1, target => do
    let target ← ops.relinearize target
    let target ← ops.rescale target
    ops.align depthDiff target

/-- Brings the operands to the same level, by the depths of their nodes. -/
def Operations.meet {C : Type} (ops : Operations B C) (leftDepth rightDepth : ℤ)
    (left right : C) : Step B (C × C) := do
  let depthDiff := leftDepth - rightDepth
  if depthDiff = 0 then return (left, right)
  else if depthDiff > 0 then return (left, ← ops.align depthDiff.natAbs right)
  else return (← ops.align depthDiff.natAbs left, right)

def Operations.call {C : Type} (ops : Operations B C) (op : Op) (left right : C) : Step B C :=
  match op with
  | .add => ops.evalAdd left right
  | .sub => ops.evalSub left right
  | .mul => ops.evalMultNoRelin left right

def ciphertextAt {C : Type} (ciphertexts : List C) (val : ℤ) : Result C :=
  if val < 0 then .error (outOfRange "vector::_M_range_check")
  else match ciphertexts[val.toNat]? with
    | some c => .ok c
    | none => .error (outOfRange "vector::_M_range_check")

section Evaluation

variable (ops : Operations B fhe.Ciphertext) (stopFlag : ℕ → Bool) (t : ASTree)
variable (ciphertexts : List fhe.Ciphertext)

/-- `stopFlag` says at which of the checks the flag is set. -/
def checkStopFlag : M fhe B Unit := do
  let m ← get
  set { m with checks := m.checks + 1 }
  if stopFlag m.checks then throw (outOfRange "stop flag")

/-- The first argument bounds the recursion through the child pointers. -/
def eval : ℕ → ℕ → M fhe B fhe.Ciphertext
  | 0, _ => throw (.abort .stackOverflow)
  | fuel + 1, node => do
    checkStopFlag stopFlag
    if (t.nodes node).isLeaf then Exec.ofExcept (ciphertextAt ciphertexts (t.nodes node).val)
    else
      match (t.nodes node).leftChild, (t.nodes node).rightChild with
      | some leftChild, some rightChild => do
        let left ← eval fuel leftChild
        let right ← eval fuel rightChild
        let (left, right) ← onBoard
          (ops.meet (t.nodes leftChild).depth (t.nodes rightChild).depth left right)
        match (t.nodes node).op with
        | some op => onBoard (ops.call op left right)
        | none => throw (invalidArgument "Invalid op in ASTNode.")
      | _, _ => throw (runtimeError "Internal ASTNode should have both chldren.")

end Evaluation

section Constraints

variable (L : Libraries fhe B V F) (stopFlag : ℕ → Bool)

def publish (ciphertexts : List fhe.Ciphertext) (val : ℤ) : M fhe B Unit := do
  let c ← Exec.ofExcept (ciphertextAt ciphertexts val)
  onBoard (L.publicInput c)
  modify fun m ↦ { m with seen := val :: m.seen }

def declare (ciphertexts : List fhe.Ciphertext) (val : ℤ) : M fhe B Unit := do
  if val ∈ (← get).seen then return ()
  publish L ciphertexts val

def initPublicInput (t : ASTree) (ciphertexts : List fhe.Ciphertext) : ℕ → ℕ → M fhe B Unit
  | 0, _ => throw (.abort .stackOverflow)
  | fuel + 1, node => do
    if (t.nodes node).isLeaf then declare L ciphertexts (t.nodes node).val
    else
      match (t.nodes node).leftChild, (t.nodes node).rightChild with
      | some leftChild, some rightChild => do
        initPublicInput t ciphertexts fuel leftChild
        initPublicInput t ciphertexts fuel rightChild
      | _, _ => throw (runtimeError "Internal ASTNode should have both chldren.")

def ast (expression : Bytes) : Result (ASTree × ℕ) := do
  let t ← (buildTree (← shunt expression)).mapError buildFailure
  match t.root with
  | none => .error (.abort .nullPointer)
  | some root => return (t, root)

/-- No path through a tree is longer than the number of its nodes. -/
def evaluate (cc : fhe.CryptoContext) (t : ASTree) (root : ℕ) (ciphertexts : List fhe.Ciphertext) :
    M fhe B fhe.Ciphertext := do
  let res ← eval (L.context cc).operations stopFlag t ciphertexts (t.nodeCounter + 1) root
  modify fun m ↦ { m with computer := { m.computer with lastRes := some res } }
  return res

/-- `ConstrainPublicOutput` reads the output through its pointer. -/
def constrainOutput : Option fhe.Ciphertext → Step B V
  | some outCtxt => L.constrainPublicOutput outCtxt
  | none => throw (.abort .nullPointer)

/-- The mode of the proof system generates constraints, and the values of the
variables with them. -/
def constrain (t : ASTree) (root : ℕ) (ciphertexts : List fhe.Ciphertext)
    (outCtxt : Option fhe.Ciphertext) : M fhe B Unit := do
  modify fun m ↦ { m with seen := [] }
  initPublicInput L t ciphertexts (t.nodeCounter + 1) root
  let varsOut ← onBoard (constrainOutput L outCtxt)
  let outCtxt ← eval L.ps stopFlag t ciphertexts (t.nodeCounter + 1) root
  onBoard (L.finalizeOutputConstraints outCtxt varsOut)

/-- The output comes from an evaluation for a new proof, and else with the computer. -/
def declaredOutput (evalOutput : Bool) (cc : fhe.CryptoContext) (t : ASTree) (root : ℕ)
    (comp : FHEComputer fhe) : M fhe B (Option fhe.Ciphertext) :=
  if evalOutput then return some (← evaluate L stopFlag cc t root comp.computation.ciphertexts)
  else return comp.lastRes

def generateConstraints (evalOutput : Bool) : M fhe B Unit := do
  let comp := (← get).computer
  let cc ← Exec.ofExcept comp.computation.getCryptoContext
  modify fun m ↦ { m with board := L.create cc }
  let tree ← Exec.ofExcept (ast comp.computation.expression)
  let outCtxt ← declaredOutput L stopFlag evalOutput cc tree.1 tree.2 comp
  constrain L stopFlag tree.1 tree.2 comp.computation.ciphertexts outCtxt

def paddedSystem (board : B) : R1csConstraintSystem F :=
  padConstraintSystemForAurora L.libiop
    (libsnarkToLibiopR1csConstraintSystem (L.constraintSystem board))

def paddedPrimary (board : B) : List F :=
  padPrimaryInputToMatchCs (paddedSystem L board) (L.primaryInput board)

def generateArgument (board : B) : Bytes :=
  L.prover (paddedSystem L board) (paddedPrimary L board)
    (padAuxiliaryInputToMatchCs (paddedSystem L board) (L.auxiliaryInput board))

def verifyArgument (board : B) (proof : Bytes) : Result Bool :=
  L.verifier (paddedSystem L board) (paddedPrimary L board) proof

def generateProof : M fhe B Unit := do
  generateConstraints L stopFlag true
  modify fun m ↦ { m with computer := { m.computer with proof := generateArgument L m.board } }

def verifyProof (proof : Bytes) : M fhe B Bool := do
  generateConstraints L stopFlag false
  Exec.ofExcept (verifyArgument L (← get).board proof)

end Constraints

section Following

structure Beside (comp comp' : FHEComputer fhe) (m m' : Machine fhe B) : Prop where
  board : m'.board = m.board
  seen : m'.seen = m.seen
  computer : m.computer = comp
  computer' : m'.computer = comp'

variable {comp comp' : FHEComputer fhe} {m m' : Machine fhe B} {stopFlag : ℕ → Bool} {t : ASTree}
variable {ciphertexts : List fhe.Ciphertext} {L : Libraries fhe B V F}

theorem follows_onBoard {α : Type} (x : Step B α) (h : Beside comp comp' m m') :
    Follows (Beside comp comp') (onBoard x m) (onBoard x m') :=
  follows_focus x h.board.symm fun _ ↦ ⟨rfl, h.seen, h.computer, h.computer'⟩

theorem follows_checkStopFlag (h : Beside comp comp' m m') :
    Follows (Beside comp comp') (checkStopFlag stopFlag m) (checkStopFlag (fun _ ↦ false) m') := by
  intro a u hu
  rw [checkStopFlag, run_bind_get, run_bind_set] at hu
  split_ifs at hu with hstop
  · cases hu
  · cases hu
    exact ⟨_, rfl, h.board, h.seen, h.computer, h.computer'⟩

theorem follows_eval (ops : Operations B fhe.Ciphertext) (fuel node : ℕ)
    (h : Beside comp comp' m m') :
    Follows (Beside comp comp') (eval ops stopFlag t ciphertexts fuel node m)
      (eval ops (fun _ ↦ false) t ciphertexts fuel node m') := by
  induction fuel generalizing node m m' with
  | zero => exact follows_error
  | succ fuel ih =>
    refine (follows_checkStopFlag h).bind fun _ m m' h ↦ ?_
    split_ifs
    · exact follows_ofExcept h
    · cases (t.nodes node).leftChild with
      | none => exact follows_error
      | some leftChild =>
        cases (t.nodes node).rightChild with
        | none => exact follows_error
        | some rightChild =>
          refine (ih leftChild h).bind fun left m m' h ↦ ?_
          refine (ih rightChild h).bind fun right m m' h ↦ ?_
          refine (follows_onBoard _ h).bind fun operands m m' h ↦ ?_
          cases (t.nodes node).op with
          | none => exact follows_error
          | some op => exact follows_onBoard _ h

theorem follows_declare (val : ℤ) (h : Beside comp comp' m m') :
    Follows (Beside comp comp') (declare L ciphertexts val m) (declare L ciphertexts val m') := by
  rw [declare, run_bind_get, run_bind_get, h.seen]
  split_ifs
  · exact follows_ok h
  · refine (follows_ofExcept h).bind fun c m m' h ↦ ?_
    refine (follows_onBoard _ h).bind fun _ m m' h ↦ ?_
    exact follows_ok ⟨h.board, congrArg (val :: ·) h.seen, h.computer, h.computer'⟩

theorem follows_initPublicInput (fuel node : ℕ) (h : Beside comp comp' m m') :
    Follows (Beside comp comp') (initPublicInput L t ciphertexts fuel node m)
      (initPublicInput L t ciphertexts fuel node m') := by
  induction fuel generalizing node m m' with
  | zero => exact follows_error
  | succ fuel ih =>
    rw [initPublicInput]
    split_ifs
    · exact follows_declare _ h
    · cases (t.nodes node).leftChild with
      | none => exact follows_error
      | some leftChild =>
        cases (t.nodes node).rightChild with
        | none => exact follows_error
        | some rightChild => exact (ih leftChild h).bind fun _ m m' h ↦ ih rightChild h

theorem follows_constrain (root : ℕ) (outCtxt : Option fhe.Ciphertext) (hboard : m'.board = m.board)
    (hm : m.computer = comp) (hm' : m'.computer = comp') :
    Follows (Beside comp comp') (constrain L stopFlag t root ciphertexts outCtxt m)
      (constrain L (fun _ ↦ false) t root ciphertexts outCtxt m') := by
  have hcleared : Beside comp comp' { m with seen := [] } { m' with seen := [] } :=
    ⟨hboard, rfl, hm, hm'⟩
  rw [constrain, constrain, run_bind_modify, run_bind_modify]
  refine (follows_initPublicInput _ _ hcleared).bind fun _ m m' h ↦ ?_
  refine (follows_onBoard _ h).bind fun vars m m' h ↦ ?_
  exact (follows_eval _ _ _ h).bind fun out m m' h ↦ follows_onBoard _ h

end Following

section Keeping

variable {C α β : Type}

def Still (x : Step B α) : Prop := ∀ board, Post x board (fun _ board' ↦ board' = board) fun _ _ ↦ True

theorem still_ofExcept (r : Result α) : Still (B := B) (Exec.ofExcept r) := by
  intro board
  cases r with
  | ok a => rfl
  | error e => cases e <;> trivial

theorem Still.bind {x : Step B α} {f : α → Step B β} (hx : Still x) (hf : ∀ a, Still (f a)) :
    Still (x >>= f) := by
  intro board
  refine (hx board).bind fun a board' he ↦ ?_
  rw [he]
  exact hf a board

theorem still_align (context : Context C) (n : ℕ) (target : C) :
    Still (context.operations (B := B).align n target) := by
  induction n generalizing target with
  | zero => exact fun _ ↦ rfl
  | succ n ih => exact (still_ofExcept _).bind fun _ ↦ (still_ofExcept _).bind ih

theorem still_meet (context : Context C) (leftDepth rightDepth : ℤ) (left right : C) :
    Still (context.operations (B := B).meet leftDepth rightDepth left right) := by
  rw [Operations.meet]
  split_ifs
  · exact fun _ ↦ rfl
  · exact (still_align _ _ _).bind fun _ _ ↦ rfl
  · exact (still_align _ _ _).bind fun _ _ ↦ rfl

theorem still_call (context : Context C) (op : Op) (left right : C) :
    Still (context.operations (B := B).call op left right) := by
  cases op <;> exact still_ofExcept _

def Kept (m m' : Machine fhe B) : Prop :=
  m'.board = m.board ∧ m'.computer = m.computer ∧ m'.seen = m.seen

variable {stopFlag : ℕ → Bool} {t : ASTree} {ciphertexts : List fhe.Ciphertext}
variable {m m₀ : Machine fhe B}

theorem post_still {x : Step B α} (hx : Still x) (h : Kept m₀ m) :
    Post (onBoard x) m (fun _ m' ↦ Kept m₀ m') fun _ _ ↦ True :=
  post_focus ((hx m.board).mono (fun _ _ hb ↦ ⟨hb.trans h.1, h.2⟩) fun _ _ _ ↦ trivial)

theorem post_eval_context (context : Context fhe.Ciphertext) (fuel node : ℕ) (h : Kept m₀ m) :
    Post (eval context.operations stopFlag t ciphertexts fuel node) m
      (fun _ m' ↦ Kept m₀ m') fun _ _ ↦ True := by
  induction fuel generalizing node m with
  | zero => trivial
  | succ fuel ih =>
    have hcheck : Post (checkStopFlag stopFlag) m (fun _ m' ↦ Kept m₀ m') fun _ _ ↦ True := by
      refine post_bind_get.mpr ?_
      rw [Post, run_bind_set]
      split_ifs
      · trivial
      · exact h
    refine hcheck.bind fun _ m h ↦ ?_
    split_ifs
    · cases ciphertextAt ciphertexts (t.nodes node).val with
      | ok c => exact h
      | error e => cases e <;> trivial
    · cases (t.nodes node).leftChild with
      | none => trivial
      | some leftChild =>
        cases (t.nodes node).rightChild with
        | none => trivial
        | some rightChild =>
          refine (ih leftChild h).bind fun left m h ↦ ?_
          refine (ih rightChild h).bind fun right m h ↦ ?_
          refine (post_still (still_meet context _ _ left right) h).bind fun operands m h ↦ ?_
          cases (t.nodes node).op with
          | none => trivial
          | some op => exact post_still (still_call context op _ _) h

end Keeping

section Checking

variable {L : Libraries fhe B V F} {stopFlag : ℕ → Bool} {m m' : Machine fhe B}

/-- The constraints that a proof was made from are the ones that any other computer
with the same ciphertexts, expression and output is checked against. -/
theorem generateConstraints_again (h : generateConstraints L stopFlag true m = .ok () m') :
    ∃ res, m'.computer = { m.computer with lastRes := some res } ∧
      ∀ n : Machine fhe B, n.computer.computation.ciphertexts = m.computer.computation.ciphertexts →
        n.computer.computation.expression = m.computer.computation.expression →
        n.computer.lastRes = some res →
        ∃ n', generateConstraints L (fun _ ↦ false) false n = .ok () n' ∧
          n'.board = m'.board ∧ n'.computer = n.computer := by
  rw [generateConstraints, run_bind_get] at h
  cases hcc : m.computer.computation.getCryptoContext with
  | error e =>
    rw [hcc] at h
    cases h
  | ok cc =>
    rw [hcc, run_bind_ofExcept_ok, run_bind_modify] at h
    cases hast : ast m.computer.computation.expression with
    | error e =>
      rw [hast] at h
      cases h
    | ok tree =>
      obtain ⟨t, root⟩ := tree
      rw [hast, run_bind_ofExcept_ok] at h
      obtain ⟨out, u, hdeclared, h⟩ := run_bind_ok.mp h
      rw [declaredOutput, if_pos rfl] at hdeclared
      obtain ⟨res, u', hevaluate, hout⟩ := run_bind_ok.mp hdeclared
      cases hout
      obtain ⟨res', v, heval, hu⟩ := run_bind_ok.mp hevaluate
      cases hu
      have hkept := @post_eval_context fhe B stopFlag t m.computer.computation.ciphertexts
        { m with board := L.create cc } { m with board := L.create cc } (L.context cc)
        (t.nodeCounter + 1) root ⟨rfl, rfl, rfl⟩
      rw [Post, heval] at hkept
      obtain ⟨hboard, hcomp, -⟩ := hkept
      let w : Machine fhe B := { v with computer := { v.computer with lastRes := some res } }
      have hconstrain : constrain L stopFlag t root m.computer.computation.ciphertexts (some res) w =
        .ok () m' := h
      have hout : w.computer = { m.computer with lastRes := some res } := by
        rw [← show v.computer = m.computer from hcomp]
      refine ⟨res, ?_, fun n hcts hexpr hres ↦ ?_⟩
      · obtain ⟨_, -, hbeside⟩ := follows_constrain root (some res) rfl hout hout _ _ hconstrain
        exact hbeside.computer
      · have hcc' : n.computer.computation.getCryptoContext = .ok cc := by
          rw [← hcc, FHEComputation.getCryptoContext, FHEComputation.getCryptoContext, hcts]
        let n₀ : Machine fhe B := { n with board := L.create cc }
        have hsame : n₀.board = w.board := hboard.symm
        obtain ⟨n', hn', hbeside⟩ := follows_constrain root (some res) hsame hout rfl _ _ hconstrain
        refine ⟨n', ?_, hbeside.board, hbeside.computer'⟩
        rw [generateConstraints, run_bind_get, hcc', run_bind_ofExcept_ok, run_bind_modify, hexpr,
          hast, run_bind_ofExcept_ok, hcts, declaredOutput, if_neg Bool.false_ne_true, hres]
        exact hn'

theorem generateProof_run (h : generateProof L stopFlag m = .ok () m') : ∃ u,
    generateConstraints L stopFlag true m = .ok () u ∧ m'.board = u.board ∧
      m'.computer = { u.computer with proof := generateArgument L u.board } := by
  obtain ⟨_, u, hu, h⟩ := run_bind_ok.mp h
  cases h
  exact ⟨u, hu, rfl, rfl⟩

theorem verifyProof_run {proof : Bytes} (h : generateConstraints L stopFlag false m = .ok () m') :
    verifyProof L stopFlag proof m = Exec.ofExcept (verifyArgument L m'.board proof) m' := by
  rw [verifyProof, run_bind_of_ok h, run_bind_get]

end Checking

section Levels

def recorded {C : Type} (ops : Leveling.Operations C) : Operations (List (Leveling.Call C)) C where
  relinearize c := return ops.relinearize c
  rescale c := return ops.rescale c
  evalAdd a b := do
    modify (· ++ [⟨.add, a, b⟩])
    return ops.evalAdd a b
  evalSub a b := do
    modify (· ++ [⟨.sub, a, b⟩])
    return ops.evalSub a b
  evalMultNoRelin a b := do
    modify (· ++ [⟨.mul, a, b⟩])
    return ops.evalMultNoRelin a b

def Level (p : Leveling.Progress fhe.Ciphertext)
    (m : Machine fhe (List (Leveling.Call fhe.Ciphertext))) : Prop :=
  m.checks = p.checks ∧ m.board = p.calls

theorem recorded_align {C : Type} (ops : Leveling.Operations C) (n : ℕ) (target : C)
    (board : List (Leveling.Call C)) :
    (recorded ops).align n target board = .ok (ops.align n target) board := by
  induction n generalizing target with
  | zero => rfl
  | succ n ih => exact ih _

theorem recorded_meet {C : Type} (ops : Leveling.Operations C) (leftDepth rightDepth : ℤ)
    (left right : C) (board : List (Leveling.Call C)) :
    (recorded ops).meet leftDepth rightDepth left right board =
      .ok (ops.meet leftDepth rightDepth left right) board := by
  rw [Operations.meet, Leveling.Operations.meet]
  split_ifs
  · rfl
  · rw [run_bind_of_ok (recorded_align _ _ _ _)]
    rfl
  · rw [run_bind_of_ok (recorded_align _ _ _ _)]
    rfl

variable {p : Leveling.Progress fhe.Ciphertext}
variable {m : Machine fhe (List (Leveling.Call fhe.Ciphertext))}

theorem alike_call (ops : Leveling.Operations fhe.Ciphertext) (op : Op) (left right : fhe.Ciphertext)
    (h : Level p m) : Alike Level (ops.call op left right p)
      (onBoard ((recorded ops).call op left right) m) := by
  cases op <;> exact .ok _ ⟨h.1, congrArg (· ++ [_]) h.2⟩

theorem eval_level (e : Leveling.FHEComputer fhe.Ciphertext) (evalMode : Bool) {t : ASTree}
    (ht : t.nodes = e.nodes) (fuel node : ℕ) (h : Level p m) :
    Alike Level (e.eval evalMode fuel node p)
      (eval (recorded (e.operations evalMode)) e.stopFlag t e.ciphertexts fuel node m) := by
  induction fuel generalizing node p m with
  | zero => exact .error _ h
  | succ fuel ih =>
    have hcheck : Alike Level (e.checkStopFlag p) (checkStopFlag e.stopFlag m) := by
      rw [Leveling.FHEComputer.checkStopFlag, checkStopFlag, run_bind_get, run_bind_get, h.1,
        run_bind_set, run_bind_set]
      split_ifs
      · exact .error _ ⟨rfl, h.2⟩
      · exact .ok () ⟨rfl, h.2⟩
    refine hcheck.bind fun _ p m h ↦ ?_
    rw [ht]
    split_ifs
    · rw [ciphertextAt, Leveling.FHEComputer.ciphertext]
      split_ifs
      · exact .error _ h
      · cases e.ciphertexts[(e.nodes node).val.toNat]? with
        | some c => exact .ok c h
        | none => exact .error _ h
    · cases (e.nodes node).leftChild with
      | none => exact .error _ h
      | some leftChild =>
        cases (e.nodes node).rightChild with
        | none => exact .error _ h
        | some rightChild =>
          refine (ih leftChild h).bind fun left p m h ↦ (ih rightChild h).bind fun right p m h ↦ ?_
          have hmeet : onBoard ((recorded (e.operations evalMode)).meet (e.nodes leftChild).depth
              (e.nodes rightChild).depth left right) m = .ok ((e.operations evalMode).meet
                (e.nodes leftChild).depth (e.nodes rightChild).depth left right) m :=
            focus_of_ok (recorded_meet _ _ _ _ _ _)
          rw [run_bind_of_ok hmeet]
          cases (e.nodes node).op with
          | none => exact .error _ h
          | some op => exact alike_call _ op _ _ h

end Levels

end FheBlockchain.Computer.Proving
