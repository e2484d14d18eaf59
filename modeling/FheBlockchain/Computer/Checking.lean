import FheBlockchain.Computer.AstMeaning
import FheBlockchain.Computer.Proving

namespace FheBlockchain.Computer.Checking

open Core.Transactions Core.Blocks Ast AstMeaning Computations Binding Expressions Messages Proving
open Library.Execution Library.HoleTree Library.Results

variable {fhe : OpenFhe} {B V F : Type} [CommSemiring F]

/-- `FHEComputer::proof` -/
def getProof (comp : FHEComputer fhe) : Result Bytes :=
  if comp.proof = [] then .error (outOfRange "Proof not found for this computation.")
  else .ok comp.proof

variable (enc : Encryption fhe) (L : Libraries fhe B V F)

def verdict (comp : FHEComputer fhe) (proof : Bytes) : Result Bool := do
  let cc ← comp.computation.getCryptoContext
  match verifyProof L (fun _ ↦ false) proof
      { computer := comp, checks := 0, seen := [], board := L.create cc } with
  | .ok convinced _ => return convinced
  | .error e _ => throw e

/-- `bind_to_data` and `verify_proof`, as the loop over the computations of a header
calls them. -/
def bindAndVerify (comp : FHEComputer fhe) (data : Bytes) : Result Bool := do
  let comp ← FHEComputer.bindToData enc comp data
  verdict L comp (← getProof comp)

section Trees

variable {n : ℕ} {i : ℕ} {o : Op} {v : ℤ} {l r : Tree ℕ Op ℤ}

def Evaluable (n : ℕ) (T : Tree ℕ Op ℤ) : Prop := T.holes = 0 ∧ ∀ v ∈ T.labels, 0 ≤ v ∧ v < n

instance (n : ℕ) (T : Tree ℕ Op ℤ) : Decidable (Evaluable n T) :=
  inferInstanceAs (Decidable (T.holes = 0 ∧ ∀ v ∈ T.labels, 0 ≤ v ∧ v < n))

theorem evaluable_hole : ¬ Evaluable n .hole := fun h ↦ by simp [Evaluable, Tree.holes] at h

theorem evaluable_leaf : Evaluable n (.leaf i v) ↔ 0 ≤ v ∧ v < n := by
  simp [Evaluable, Tree.holes, Tree.labels]

theorem evaluable_node : Evaluable n (.node i o l r) ↔ Evaluable n l ∧ Evaluable n r := by
  simp only [Evaluable, Tree.holes, Tree.labels, Nat.add_eq_zero_iff, List.forall_mem_append]
  exact and_and_and_comm

theorem isOk_ciphertextAt {C : Type} (ciphertexts : List C) (v : ℤ) :
    (ciphertextAt ciphertexts v).isOk = true ↔ 0 ≤ v ∧ v < ciphertexts.length := by
  rw [ciphertextAt]
  split_ifs with hneg
  · simp only [Except.isOk, Except.toBool, Bool.false_eq_true, false_iff]
    omega
  · by_cases hlt : v.toNat < ciphertexts.length
    · rw [List.getElem?_eq_getElem hlt]
      exact iff_of_true rfl (by omega)
    · rw [List.getElem?_eq_none (by omega)]
      exact iff_of_false (by simp [Except.isOk, Except.toBool]) (by omega)

end Trees

structure Answering {C : Type} (ops : Operations B C) : Prop where
  relinearize : ∀ c, ReturnsIff (ops.relinearize c) True
  rescale : ∀ c, ReturnsIff (ops.rescale c) True
  evalAdd : ∀ a b, ReturnsIff (ops.evalAdd a b) True
  evalSub : ∀ a b, ReturnsIff (ops.evalSub a b) True
  evalMultNoRelin : ∀ a b, ReturnsIff (ops.evalMultNoRelin a b) True

/-- The calls into the libraries return, once the code gets to them. -/
structure Obliging : Prop where
  ps : Answering L.ps
  publicInput : ∀ c, ReturnsIff (L.publicInput c) True
  constrainPublicOutput : ∀ c, ReturnsIff (L.constrainPublicOutput c) True
  finalizeOutputConstraints : ∀ c v, ReturnsIff (L.finalizeOutputConstraints c v) True
  verifier : ∀ cs x proof, (L.verifier cs x proof).isOk = true

variable {enc L} {ops : Operations B fhe.Ciphertext} {t : ASTree}
variable {ciphertexts : List fhe.Ciphertext}

section Evaluation

theorem returns_align {C : Type} {ops : Operations B C} (hops : Answering ops) (n : ℕ)
    (target : C) : ReturnsIff (ops.align n target) True := by
  induction n generalizing target with
  | zero => exact returnsIff_pure _
  | succ n ih => exact (hops.relinearize _).then fun _ ↦ (hops.rescale _).then ih

theorem returns_meet {C : Type} {ops : Operations B C} (hops : Answering ops) (a b : ℤ)
    (left right : C) : ReturnsIff (ops.meet a b left right) True := by
  rw [Operations.meet]
  split_ifs
  · exact returnsIff_pure _
  · exact (returns_align hops _ _).then fun _ ↦ returnsIff_pure _
  · exact (returns_align hops _ _).then fun _ ↦ returnsIff_pure _

theorem returns_call {C : Type} {ops : Operations B C} (hops : Answering ops) (op : Op)
    (left right : C) : ReturnsIff (ops.call op left right) True := by
  cases op with
  | add => exact hops.evalAdd left right
  | sub => exact hops.evalSub left right
  | mul => exact hops.evalMultNoRelin left right

theorem returns_checkStopFlag :
    ReturnsIff (checkStopFlag (fun _ ↦ false) : M fhe B Unit) True :=
  fun m ↦ iff_of_true ⟨(), { m with checks := m.checks + 1 }, rfl⟩ trivial

theorem returns_onBoard {α : Type} {x : Step B α} {P : Prop} (h : ReturnsIff x P) :
    ReturnsIff (onBoard x : M fhe B α) P := h.focus

theorem eval_returnsIff (hops : Answering ops) (fuel node : ℕ) :
    ReturnsIff (eval ops (fun _ ↦ false) t ciphertexts fuel node)
      (Evaluable ciphertexts.length (readTree t.nodes fuel (some node))) := by
  induction fuel generalizing node with
  | zero => exact (returnsIff_throw _).congr (iff_of_false not_false evaluable_hole)
  | succ fuel ih =>
    refine returns_checkStopFlag.then fun _ ↦ ?_
    rw [readTree]
    split_ifs with hleaf
    · rw [evaluable_leaf]
      exact (returnsIff_ofExcept _).congr (isOk_ciphertextAt _ _)
    · have hhole : readTree t.nodes fuel none = .hole := by cases fuel <;> rfl
      cases hop : (t.nodes node).op with
      | none =>
        cases (t.nodes node).leftChild with
        | none => exact (returnsIff_throw _).congr (iff_of_false not_false evaluable_hole)
        | some leftChild =>
          cases (t.nodes node).rightChild with
          | none => exact (returnsIff_throw _).congr (iff_of_false not_false evaluable_hole)
          | some rightChild =>
            -- the operands are evaluated before the missing operator is noticed
            refine ReturnsIff.congr (P := Evaluable ciphertexts.length
              (readTree t.nodes fuel (some leftChild)) ∧ Evaluable ciphertexts.length
                (readTree t.nodes fuel (some rightChild)) ∧ False) ?_
              (iff_of_false (fun h ↦ h.2.2) evaluable_hole)
            refine (ih leftChild).bind fun left ↦ (ih rightChild).bind fun right ↦ ?_
            exact (returns_onBoard (returns_meet hops _ _ left right)).then fun _ ↦
              returnsIff_throw _
      | some op =>
        rw [evaluable_node]
        cases (t.nodes node).leftChild with
        | none =>
          exact (returnsIff_throw _).congr (iff_of_false not_false fun h ↦
            evaluable_hole (hhole ▸ h.1))
        | some leftChild =>
          cases (t.nodes node).rightChild with
          | none =>
            exact (returnsIff_throw _).congr (iff_of_false not_false fun h ↦
              evaluable_hole (hhole ▸ h.2))
          | some rightChild =>
            refine ReturnsIff.congr (P := Evaluable ciphertexts.length
              (readTree t.nodes fuel (some leftChild)) ∧ Evaluable ciphertexts.length
                (readTree t.nodes fuel (some rightChild)) ∧ True) ?_ (by rw [and_true])
            refine (ih leftChild).bind fun left ↦ (ih rightChild).bind fun right ↦ ?_
            exact (returns_onBoard (returns_meet hops _ _ left right)).then fun _ ↦
              returns_onBoard (returns_call hops op _ _)

end Evaluation

section Constraints

theorem returns_declare (hL : Obliging L) {val : ℤ}
    (h : (ciphertextAt ciphertexts val).isOk = true) :
    ReturnsIff (declare L ciphertexts val) True := by
  have hpublish : ReturnsIff (publish L ciphertexts val) True :=
    ((returnsIff_ofExcept _).congr (iff_true_intro h)).then fun c ↦
      (returns_onBoard (hL.publicInput c)).then fun _ ↦ returnsIff_modify _
  intro m
  rw [declare, run_bind_get]
  split_ifs
  · exact returnsIff_pure () m
  · exact hpublish m

theorem returns_initPublicInput (hL : Obliging L) {fuel node : ℕ}
    (h : Evaluable ciphertexts.length (readTree t.nodes fuel (some node))) :
    ReturnsIff (initPublicInput L t ciphertexts fuel node) True := by
  induction fuel generalizing node with
  | zero => exact absurd h evaluable_hole
  | succ fuel ih =>
    rw [readTree] at h
    rw [initPublicInput]
    split_ifs at h ⊢ with hleaf
    · exact returns_declare hL ((isOk_ciphertextAt _ _).mpr (evaluable_leaf.mp h))
    · have hhole : readTree t.nodes fuel none = .hole := by cases fuel <;> rfl
      cases hop : (t.nodes node).op with
      | none =>
        rw [hop] at h
        exact absurd h evaluable_hole
      | some op =>
        rw [hop] at h
        obtain ⟨hl, hr⟩ := evaluable_node.mp h
        cases hleft : (t.nodes node).leftChild with
        | none => exact absurd (hhole ▸ hleft ▸ hl) evaluable_hole
        | some leftChild =>
          cases hright : (t.nodes node).rightChild with
          | none => exact absurd (hhole ▸ hright ▸ hr) evaluable_hole
          | some rightChild => exact (ih (hleft ▸ hl)).then fun _ ↦ ih (hright ▸ hr)

theorem returns_constrainOutput (hL : Obliging L) (outCtxt : Option fhe.Ciphertext) :
    ReturnsIff (constrainOutput L outCtxt) (outCtxt.isSome = true) := by
  cases outCtxt with
  | none => exact (returnsIff_throw _).congr (by simp)
  | some out => exact (hL.constrainPublicOutput out).congr (by simp)

theorem constrain_returnsIff (hL : Obliging L) (root : ℕ) (outCtxt : Option fhe.Ciphertext) :
    ReturnsIff (constrain L (fun _ ↦ false) t root ciphertexts outCtxt) (outCtxt.isSome = true ∧
      Evaluable ciphertexts.length (readTree t.nodes (t.nodeCounter + 1) (some root))) := by
  have heval (vars : V) : ReturnsIff (do
      let outCtxt ← eval L.ps (fun _ ↦ false) t ciphertexts (t.nodeCounter + 1) root
      onBoard (L.finalizeOutputConstraints outCtxt vars) : M fhe B Unit)
      (Evaluable ciphertexts.length (readTree t.nodes (t.nodeCounter + 1) (some root))) :=
    ((eval_returnsIff hL.ps _ root).bind fun out ↦
      returns_onBoard (hL.finalizeOutputConstraints out vars)).congr (iff_of_eq (and_true _))
  have hafter : ReturnsIff (do
      let varsOut ← onBoard (constrainOutput L outCtxt)
      let outCtxt ← eval L.ps (fun _ ↦ false) t ciphertexts (t.nodeCounter + 1) root
      onBoard (L.finalizeOutputConstraints outCtxt varsOut) : M fhe B Unit) _ :=
    (returns_onBoard (returns_constrainOutput hL outCtxt)).bind heval
  by_cases htree : Evaluable ciphertexts.length (readTree t.nodes (t.nodeCounter + 1) (some root))
  · exact (returnsIff_modify _).then fun _ ↦ (returns_initPublicInput hL htree).then fun _ ↦ hafter
  · -- the declarations may fail too, but what follows them fails for sure
    intro m
    refine iff_of_false ?_ fun h ↦ htree h.2
    rintro ⟨a, m', hrun⟩
    obtain ⟨_, m₁, -, hrun⟩ := run_bind_ok.mp hrun
    obtain ⟨_, m₂, -, hrun⟩ := run_bind_ok.mp hrun
    exact htree ((hafter m₂).mp ⟨a, m', hrun⟩).2

/-- What the constraints of a computation are generated from. -/
structure Checkable (comp : FHEComputer fhe) : Prop where
  ciphertexts : comp.computation.ciphertexts ≠ []
  lastRes : comp.lastRes.isSome = true
  tree : ∃ t root, ast comp.computation.expression = .ok (t, root) ∧
    Evaluable comp.computation.ciphertexts.length (readTree t.nodes (t.nodeCounter + 1) (some root))

theorem isOk_getCryptoContext {comp : FHEComputation fhe} :
    comp.getCryptoContext.isOk = true ↔ comp.ciphertexts ≠ [] := by
  rw [FHEComputation.getCryptoContext]
  cases comp.ciphertexts <;> simp [Except.isOk, Except.toBool]

theorem generateConstraints_returns (hL : Obliging L) (m : Machine fhe B) :
    (∃ m', generateConstraints L (fun _ ↦ false) false m = .ok () m') ↔ Checkable m.computer := by
  rw [generateConstraints, run_bind_get]
  cases hcc : m.computer.computation.getCryptoContext with
  | error e =>
    refine iff_of_false (by rintro ⟨m', h⟩; cases h) fun h ↦ ?_
    have hok := isOk_getCryptoContext.mpr h.ciphertexts
    rw [hcc] at hok
    cases hok
  | ok cc =>
    have hcts : m.computer.computation.ciphertexts ≠ [] :=
      isOk_getCryptoContext.mp (isOk_iff.mpr ⟨cc, hcc⟩)
    rw [run_bind_ofExcept_ok, run_bind_modify]
    cases hast : ast m.computer.computation.expression with
    | error e =>
      refine iff_of_false (by rintro ⟨m', h⟩; cases h) fun h ↦ ?_
      obtain ⟨t, root, h, -⟩ := h.tree
      cases hast.symm.trans h
    | ok tree =>
      obtain ⟨t, root⟩ := tree
      rw [run_bind_ofExcept_ok, declaredOutput, if_neg Bool.false_ne_true]
      have hreturns : ReturnsIff (constrain L (fun _ ↦ false) t root
          m.computer.computation.ciphertexts m.computer.lastRes) _ := constrain_returnsIff hL root _
      have hrun := hreturns { m with board := L.create cc }
      constructor
      · rintro ⟨m', h⟩
        obtain ⟨hres, htree⟩ := hrun.mp ⟨(), m', h⟩
        exact ⟨hcts, hres, t, root, hast, htree⟩
      · rintro ⟨-, hres, t', root', hast', htree⟩
        cases hast.symm.trans hast'
        obtain ⟨⟨⟩, m', h⟩ := hrun.mpr ⟨hres, htree⟩
        exact ⟨m', h⟩

theorem isOk_verdict (hL : Obliging L) (comp : FHEComputer fhe) (proof : Bytes) :
    (verdict L comp proof).isOk = true ↔ Checkable comp := by
  rw [verdict]
  cases hcc : comp.computation.getCryptoContext with
  | error e =>
    refine iff_of_false Bool.false_ne_true fun h ↦ ?_
    have hok := isOk_getCryptoContext.mpr h.ciphertexts
    rw [hcc] at hok
    cases hok
  | ok cc =>
    let m : Machine fhe B := { computer := comp, checks := 0, seen := [], board := L.create cc }
    rw [← generateConstraints_returns hL m]
    cases hrun : generateConstraints L (fun _ ↦ false) false m with
    | error e m' =>
      have hfail : verifyProof L (fun _ ↦ false) proof m = .error e m' := by
        rw [verifyProof, run_bind_of_error hrun]
      refine iff_of_false ?_ (by simp)
      simp only [bind, Except.bind, m, hfail]
      exact Bool.false_ne_true
    | ok u m' =>
      obtain ⟨convinced, hver⟩ := isOk_iff.mp
        (hL.verifier (paddedSystem L m'.board) (paddedPrimary L m'.board) proof)
      have hdone : verifyProof L (fun _ ↦ false) proof m = .ok convinced m' := by
        rw [verifyProof_run hrun, verifyArgument, hver]
        rfl
      refine iff_of_true ?_ ⟨m', rfl⟩
      simp only [bind, Except.bind, m, hdone]
      rfl

variable (enc) in
theorem checkable_bound (cc : fhe.CryptoContext) (comp : FHEComputer fhe) (data : Bytes) :
    Checkable { comp with computation := bound enc cc comp.computation data } ↔ Checkable comp := by
  have hlen : (bound enc cc comp.computation data).ciphertexts.length =
      comp.computation.ciphertexts.length := List.length_mapIdx
  have hcts : (bound enc cc comp.computation data).ciphertexts ≠ [] ↔
      comp.computation.ciphertexts ≠ [] := by
    rw [← List.length_pos_iff, ← List.length_pos_iff, hlen]
  constructor
  · rintro ⟨h, hres, t, root, hast, htree⟩
    exact ⟨hcts.mp h, hres, t, root, hast, hlen ▸ htree⟩
  · rintro ⟨h, hres, t, root, hast, htree⟩
    exact ⟨hcts.mpr h, hres, t, root, hast, hlen.symm ▸ htree⟩

/-- A check comes to a verdict on a computation that has a proof, an output and a tree
that can be evaluated. -/
theorem isOk_bindAndVerify (hL : Obliging L) (comp : FHEComputer fhe) (data : Bytes) :
    (bindAndVerify enc L comp data).isOk = true ↔ comp.proof ≠ [] ∧ Checkable comp := by
  rw [bindAndVerify, FHEComputer.bindToData, bindInputsToData]
  cases hcc : comp.computation.getCryptoContext with
  | error e =>
    refine iff_of_false Bool.false_ne_true fun h ↦ ?_
    have hok := isOk_getCryptoContext.mpr h.2.ciphertexts
    rw [hcc] at hok
    cases hok
  | ok cc =>
    rw [← checkable_bound enc cc comp data, ← isOk_verdict hL _ comp.proof]
    by_cases hproof : comp.proof = []
    · exact iff_of_false (by simp [getProof, hproof, bind, Except.bind, pure, Except.pure,
        Except.isOk, Except.toBool]) fun h ↦ h.1 hproof
    · rw [and_iff_right hproof]
      simp only [getProof, hproof, bind, Except.bind, pure, Except.pure, if_false]

end Constraints

end FheBlockchain.Computer.Checking
