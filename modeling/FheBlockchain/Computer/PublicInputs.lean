import FheBlockchain.Computer.AstBuild
import FheBlockchain.Computer.Proving

namespace FheBlockchain.Computer.PublicInputs

open Core.Transactions Ast AstMemory AstMeaning AstBuild Computations Expressions Proving
open Library.Execution Library.HoleTree Library.Results

variable {fhe : OpenFhe} {B V F : Type} [CommSemiring F] {L : Libraries fhe B V F}
variable {ciphertexts : List fhe.Ciphertext} {m : Machine fhe B} {val : ℤ} {vals : List ℤ}

section Distinct

theorem declare_seen (h : val ∈ m.seen) : declare L ciphertexts val m = .ok () m := by
  rw [declare, run_bind_get, if_pos h]
  rfl

theorem declare_new (h : val ∉ m.seen) :
    declare L ciphertexts val m = publish L ciphertexts val m := by
  rw [declare, run_bind_get, if_neg h]

theorem seen_of_publish {m' : Machine fhe B} (h : publish L ciphertexts val m = .ok () m') :
    m'.seen = val :: m.seen := by
  have hpost : Post (publish L ciphertexts val) m (fun _ m' ↦ m'.seen = val :: m.seen)
      fun _ _ ↦ True := by
    refine post_bind_ofExcept (fun c _ ↦ ?_) fun _ _ ↦ trivial
    refine Post.bind (R := fun _ m' ↦ m'.seen = m.seen) ?_ fun _ m' hm' ↦ ?_
    · exact post_focus ((post_true _ _).mono (fun _ _ _ ↦ rfl) fun _ _ _ ↦ trivial)
    · exact post_modify.mpr (congrArg (val :: ·) hm')
  rwa [Post, h] at hpost

theorem seen_of_declare {m' : Machine fhe B} (h : declare L ciphertexts val m = .ok () m') :
    val ∈ m'.seen ∧ m.seen ⊆ m'.seen := by
  by_cases hseen : val ∈ m.seen
  · rw [declare_seen hseen] at h
    cases h
    exact ⟨hseen, List.Subset.refl _⟩
  · rw [declare_new hseen] at h
    rw [seen_of_publish h]
    exact ⟨List.mem_cons_self, List.subset_cons_self _ _⟩

theorem declareAll_filter (h : val ∈ m.seen) :
    vals.forM (declare L ciphertexts) m =
      (vals.filter fun v ↦ !v == val).forM (declare L ciphertexts) m := by
  induction vals generalizing m with
  | nil => rfl
  | cons v vals ih =>
    rw [forM_cons, List.filter_cons]
    by_cases hv : v = val
    · subst hv
      rw [declare_seen h, if_neg (by simp)]
      exact ih h
    · rw [if_pos (by simpa using hv), forM_cons]
      cases hd : declare L ciphertexts v m with
      | ok _ m' => exact ih ((seen_of_declare hd).2 h)
      | error e m' => rfl

theorem declareAll_publish (h : ∀ v ∈ vals, v ∉ m.seen) :
    vals.forM (declare L ciphertexts) m = vals.eraseDups.forM (publish L ciphertexts) m := by
  induction hn : vals.length using Nat.strong_induction_on generalizing vals m with
  | _ n ih =>
    cases vals with
    | nil => rfl
    | cons v vals =>
      rw [List.eraseDups_cons, forM_cons, forM_cons, declare_new (h v List.mem_cons_self)]
      cases hd : publish L ciphertexts v m with
      | error e m' => rfl
      | ok _ m' =>
        have hseen := seen_of_publish hd
        have hshort := List.length_filter_le (fun w ↦ !w == v) vals
        rw [List.length_cons] at hn
        dsimp only
        rw [declareAll_filter (show v ∈ m'.seen by rw [hseen]; exact List.mem_cons_self)]
        refine ih _ (by omega) (fun w hw ↦ ?_) rfl
        obtain ⟨hmem, hne⟩ := List.mem_filter.mp hw
        rw [hseen, List.mem_cons, not_or]
        exact ⟨by simpa using hne, h w (List.mem_cons_of_mem _ hmem)⟩

end Distinct

section Order

variable {t : ASTree} {T : Tree ℕ Op ℤ} {e : Expr} {fuel node : ℕ}

theorem root_of_toExpr? (h : toExpr? T = some e) : ∃ i, T.root = some i := by
  cases T with
  | hole => cases h
  | leaf i v | node i o l r => exact ⟨i, rfl⟩

theorem initPublicInput_leaves (h : Linked t.nodes T) (he : toExpr? T = some e)
    (hroot : T.root = some node) (hfuel : T.ids.length ≤ fuel) :
    initPublicInput L t ciphertexts fuel node = e.leaves.forM (declare L ciphertexts) := by
  induction T generalizing e fuel node with
  | hole => cases hroot
  | leaf i v =>
    obtain rfl := Option.some.inj hroot
    obtain rfl := Option.some.inj he
    obtain ⟨hleaf, ⟨-, hval⟩, -, -⟩ := h
    obtain ⟨fuel, rfl⟩ := Nat.exists_eq_add_of_le' hfuel
    funext m
    rw [Tree.ids, List.length_singleton, initPublicInput, if_pos hleaf, hval, Expr.leaves,
      forM_cons]
    cases declare L ciphertexts v m <;> rfl
  | node i o l r ihl ihr =>
    obtain rfl := Option.some.inj hroot
    obtain ⟨⟨hleaf, -⟩, hlc, hrc, hll, hlr⟩ := h
    simp only [toExpr?, Option.bind_eq_bind, Option.bind_eq_some_iff] at he
    obtain ⟨el, hel, er, her, he⟩ := he
    obtain rfl := Option.some.inj he
    obtain ⟨left, hleft⟩ := root_of_toExpr? hel
    obtain ⟨right, hright⟩ := root_of_toExpr? her
    rw [Tree.ids, List.length_cons, List.length_append] at hfuel
    obtain ⟨fuel, rfl⟩ := Nat.exists_eq_add_of_le' (show 1 ≤ fuel by omega)
    rw [initPublicInput, if_neg (by rw [hleaf]; exact Bool.false_ne_true), hlc, hleft, hrc, hright]
    dsimp only
    rw [ihl hll hel hleft (by omega), ihr hlr her hright (by omega)]
    exact List.forM_append.symm

/-- The public inputs of an expression are the ciphertexts of its literals, each
one where its literal comes first, however the tree has been rotated. -/
theorem public_inputs {expression : Bytes} {toks : List Token} (hq : shunt expression = .ok toks)
    (hwf : WellFormed toks) (hfit : ∀ tok ∈ toks, fitsInt tok = true)
    (hrun : runCurrent .init toks.reverse = true) :
    ∃ t root, ast expression = .ok (t, root) ∧ ∀ m : Machine fhe B, m.seen = [] →
      initPublicInput L t ciphertexts (t.nodeCounter + 1) root m =
        (operands toks).eraseDups.forM (publish L ciphertexts) m := by
  have hv : ∀ tok ∈ toks.reverse, ValidToken tok := by
    intro tok htok
    have hmem := List.mem_reverse.mp htok
    exact ⟨hwf.2 tok hmem, hfit tok hmem⟩
  obtain ⟨s, T, hloop, h⟩ := buildLoop_built Built.init hv hrun
  rw [List.reverse_reverse, List.append_nil] at h
  obtain ⟨e, he, hleaves, -⟩ := h.builds.meaning.{0} hwf.1
  obtain ⟨root, hroot⟩ := root_of_toExpr? he
  have hbuild : buildTree toks = .ok s.tree := by
    rw [buildTree, hloop]
    rfl
  refine ⟨s.tree, root, ?_, fun m hm ↦ ?_⟩
  · rw [ast, hq]
    simp only [bind, Except.bind, hbuild, Except.mapError, ← h.root, hroot]
    rfl
  · rw [initPublicInput_leaves h.rep.linked he hroot (Nat.le_succ_of_le h.rep.length_le), hleaves]
    exact declareAll_publish (by simp [hm])

end Order

section Sample

def noting (fhe : OpenFhe) : Libraries fhe (List fhe.Ciphertext) Unit (ZMod 7) where
  context _ := {
    relinearize := .ok
    rescale := .ok
    evalAdd := fun a _ ↦ .ok a
    evalSub := fun a _ ↦ .ok a
    evalMultNoRelin := fun a _ ↦ .ok a }
  create _ := []
  publicInput c := modify (· ++ [c])
  constrainPublicOutput _ := return ()
  ps := {
    relinearize := fun c ↦ return c
    rescale := fun c ↦ return c
    evalAdd := fun a _ ↦ return a
    evalSub := fun a _ ↦ return a
    evalMultNoRelin := fun a _ ↦ return a }
  finalizeOutputConstraints _ _ := return ()
  constraintSystem _ := ⟨0, 0, []⟩
  primaryInput _ := []
  auxiliaryInput _ := []
  libiop := Padding.roundingUp
  prover _ _ _ := []
  verifier _ _ _ := .ok true

/-- 2 * 0 * 1 * (3 * 0) * 1, which is rotated. -/
def sampleExpression : Bytes := [50, 42, 48, 42, 49, 42, 40, 51, 42, 48, 41, 42, 49]

def sampleTokens : List Token := (shunt sampleExpression).toOption.getD []

def sumFhe : OpenFhe where
  PublicKey := Unit
  Ciphertext := ℤ
  CryptoContext := Unit
  cryptoContext _ := ()
  serializePublicKey _ := [1]
  serializeCiphertext c := [UInt8.ofInt c]
  serializeEvalMultKey _ := []

def oneCiphertext : FHEComputation sumFhe where
  expression := [48]
  publicKey := ()
  ciphertexts := [(7 : ℤ)]
  timestamp := 0
  unboundCiphertextsArchive := []
  isBound := false

instance : DecidableEq sumFhe.Ciphertext := inferInstanceAs (DecidableEq ℤ)

def numbers (ns : List ℤ) : List sumFhe.Ciphertext := ns

def sampleMachine : Machine sumFhe (List sumFhe.Ciphertext) where
  computer := ⟨oneCiphertext, none, [], 0⟩
  checks := 0
  seen := []
  board := []

theorem public_inputs_sample : ∃ t root, ast sampleExpression = .ok (t, root) ∧
    ∃ m', initPublicInput (noting sumFhe) t (numbers [10, 11, 12, 13]) (t.nodeCounter + 1)
        root sampleMachine = .ok () m' ∧ m'.board = numbers [12, 10, 11, 13] := by
  have hq : shunt sampleExpression = .ok sampleTokens := by decide +kernel
  obtain ⟨t, root, hast, h⟩ := public_inputs (L := noting sumFhe) hq (by decide +kernel)
    (by decide +kernel) (by decide +kernel)
  have hall : returns ((operands sampleTokens).eraseDups.forM
      (publish (noting sumFhe) (numbers [10, 11, 12, 13]))) sampleMachine
        (fun _ m' ↦ m'.board = numbers [12, 10, 11, 13]) = true := by decide +kernel
  obtain ⟨⟨⟩, m', hm', hboard⟩ := returns_iff.mp hall
  exact ⟨t, root, hast, m', (h sampleMachine rfl).trans hm', of_decide_eq_true hboard⟩

end Sample

end FheBlockchain.Computer.PublicInputs
