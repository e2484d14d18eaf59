import FheBlockchain.Computer.AstMeaning

namespace FheBlockchain.Computer.AstBuild

open Ast AstMemory AstRotation AstMeaning Library.HoleTree

universe u

theorem readTree_linked {nodes : ℕ → ASTNode} {T : Tree ℕ Op ℤ} (h : Linked nodes T) {fuel : ℕ}
    (hf : T.ids.length ≤ fuel) : readTree nodes fuel T.root = T := by
  induction T generalizing fuel with
  | hole => cases fuel <;> rfl
  | leaf i v =>
    obtain ⟨fuel, rfl⟩ : ∃ k, fuel = k + 1 := ⟨fuel - 1, by simp [Tree.ids] at hf; omega⟩
    simp [readTree, Tree.root, h.1, h.2.1.2]
  | node i o l r ihl ihr =>
    obtain ⟨fuel, rfl⟩ : ∃ k, fuel = k + 1 := ⟨fuel - 1, by simp [Tree.ids] at hf; omega⟩
    simp only [Tree.ids, List.length_cons, List.length_append] at hf
    have hl := ihl h.2.2.2.1 (show l.ids.length ≤ fuel by omega)
    have hr := ihr h.2.2.2.2 (show r.ids.length ≤ fuel by omega)
    rw [← h.2.1] at hl
    rw [← h.2.2.1] at hr
    simp [readTree, Tree.root, h.1.1, h.1.2, hl, hr]

theorem reachable_eq {t : ASTree} {T : Tree ℕ Op ℤ} (h : Rep t T) (hr : T.root = t.root) :
    reachable t = T := by
  rw [reachable, ← hr]
  exact readTree_linked h.linked h.length_le

/-- What holds of the loop of `build_tree` once the tokens `done` have been
read: memory holds a tree that can be built from them. -/
structure Built (s : BuildState) (done : List Token) (T : Tree ℕ Op ℤ) : Prop where
  rep : Rep s.tree T
  root : T.root = s.tree.root
  builds : Builds done T
  stack : T = .hole → s.tree.nodeStack = []

theorem Built.init : Built BuildState.init [] .hole where
  rep := ⟨trivial, List.nodup_nil, trivial, by simp [Tree.ids]⟩
  root := rfl
  builds := .nil
  stack _ := rfl

def fitsInt : Token → Bool
  | .op _ => true
  | .num digits => decimal digits ≤ 2147483647

def ValidToken (tok : Token) : Prop := isNumeral tok = true ∧ fitsInt tok = true

def tokenNode (p : Option ℕ) : Token → ASTNode
  | .op o => { ASTNode.operator (o = .mul) o with parent := p }
  | .num digits => { ASTNode.operand (decimal digits) with parent := p }

theorem makeNode_valid {tok : Token} (h : ValidToken tok) :
    makeNode tok = .ok (tokenNode none tok) := by
  cases tok with
  | op o => rfl
  | num digits =>
    obtain ⟨hnum, hfit⟩ := h
    simp only [isNumeral, fitsInt, decide_eq_true_eq, Bool.and_eq_true] at hnum hfit
    obtain ⟨hne, hdig⟩ := hnum
    simp [makeNode, stoi, hne, hdig, hfit, tokenNode, ASTNode.operand, bind, Except.bind, pure,
      Except.pure]

theorem tokenTree_linked {nodes : ℕ → ASTNode} {i : ℕ} {tok : Token} {p : Option ℕ}
    (h : nodes i = tokenNode p tok) : Linked nodes (tokenTree i tok) := by
  cases tok <;>
  simp [tokenTree, Linked, h, tokenNode, ASTNode.operator, ASTNode.operand, Tree.root]

section Insertion

variable {t : ASTree} {stack : List ℕ} {tok : Token} {i : ℕ}

def allocateBelow (t : ASTree) (stack : List ℕ) (tok : Token) (i : ℕ) : ASTree :=
  (allocate t stack (tokenNode none tok)).modify t.nodeCounter fun n ↦ { n with parent := some i }

theorem allocateBelow_nodes (j : ℕ) : (allocateBelow t stack tok i).nodes j =
    if j = t.nodeCounter then tokenNode (some i) tok else t.nodes j := by
  rw [allocateBelow, modify_nodes]
  split_ifs with h
  · subst h
    cases tok <;> simp [allocate, tokenNode]
  · simp [allocate, h]

theorem allocateBelow_hung {c : Context ℕ Op ℤ} (h : Rep t (c.plug .hole))
    (hi : c.lo = some i ∨ c.hi = some i) :
    Hung (allocateBelow t stack tok i) c none (tokenTree t.nodeCounter tok) := by
  have hfresh (j : ℕ) (hj : j ∈ c.ids) : j < t.nodeCounter :=
    h.fresh j ((c.ids_plug .hole).mem_iff.mpr (by simpa [Tree.ids] using hj))
  have hids : (tokenTree t.nodeCounter tok).ids = [t.nodeCounter] := by cases tok <;> rfl
  have hperm := c.ids_plug (tokenTree t.nodeCounter tok)
  rw [hids] at hperm
  have hold {j : ℕ} (hj : j ∈ c.ids) : (allocateBelow t stack tok i).nodes j = t.nodes j := by
    rw [allocateBelow_nodes, if_neg (Nat.ne_of_lt (hfresh j hj))]
  have hnew : (allocateBelow t stack tok i).nodes t.nodeCounter = tokenNode (some i) tok := by
    rw [allocateBelow_nodes, if_pos rfl]
  obtain ⟨-, hla⟩ := (linked_plug ..).mp h.linked
  obtain ⟨-, hb⟩ := (c.bounded_plug ..).mp h.bounded
  refine ⟨tokenTree_linked hnew, ?_, ?_, ?_, ?_⟩
  · exact hla.congr fun j hj ↦ hold hj ▸ ⟨SameLabel.refl _, rfl, rfl⟩
  · rw [hperm.nodup_iff]
    have hc : c.ids.Nodup := by simpa [Tree.ids] using (nodup_plug .hole).mp h.nodup
    exact List.nodup_cons.mpr ⟨fun hn ↦ Nat.lt_irrefl _ (hfresh _ hn), hc⟩
  · refine (c.bounded_plug ..).mpr ⟨?_, hb.congr fun j hj ↦ congrArg _ (hold hj)⟩
    have hpar : ((allocateBelow t stack tok i).nodes t.nodeCounter).parent = some i := by
      rw [hnew]
      cases tok <;> rfl
    cases tok <;> simpa [tokenTree, Tree.Bounded, hpar, eq_comm] using hi
  · intro j hj
    rw [hperm.mem_iff] at hj
    rcases List.mem_cons.mp hj with rfl | hj
    · exact Nat.lt_succ_self _
    · exact Nat.lt_succ_of_lt (hfresh j hj)

/-- Inserting below the owner of the rightmost hole fills that hole. -/
theorem insertChild_spec {T : Tree ℕ Op ℤ} (h : Rep t T) (hi : T.freeOwner = some i) :
    ∃ (c d : Context ℕ Op ℤ) (o : Op) (l r : Tree ℕ Op ℤ), T = c.plug .hole ∧ c.RightFull ∧
      c.plug (tokenTree t.nodeCounter tok) = d.plug (.node i o l r) ∧
      (c = .right i o l d ∧ r = tokenTree t.nodeCounter tok ∨
        c = .left i o d r ∧ l = tokenTree t.nodeCounter tok) ∧
      Rep ((allocateBelow t stack tok i).insertChild i t.nodeCounter).1
        (c.plug (tokenTree t.nodeCounter tok)) := by
  obtain ⟨d, o, l, r, rfl, hd, hpos⟩ := Tree.freeOwner_position hi
  obtain ⟨hl, -⟩ := (linked_plug ..).mp h.linked
  have hne : i ≠ t.nodeCounter :=
    Nat.ne_of_lt (h.fresh i ((d.ids_plug _).mem_iff.mpr (by simp [Tree.ids])))
  have hright : ((allocateBelow t stack tok i).nodes i).rightChild = r.root := by
    rw [allocateBelow_nodes, if_neg hne]
    exact hl.2.2.1
  have hroot : (tokenTree t.nodeCounter tok).root = some t.nodeCounter := by cases tok <;> rfl
  by_cases hr : r = .hole
  · subst hr
    refine ⟨.right i o l d, d, o, l, tokenTree t.nodeCounter tok, rfl, hd, rfl, .inl ⟨rfl, rfl⟩, ?_⟩
    simp only [ASTree.insertChild, hright, Tree.root]
    exact (allocateBelow_hung h (.inl rfl)).setRightChild hroot
  · obtain ⟨hfull, rfl⟩ := hpos.resolve_left hr
    refine ⟨.left i o d r, d, o, tokenTree t.nodeCounter tok, r, rfl, ⟨hfull, hd⟩, rfl,
      .inr ⟨rfl, rfl⟩, ?_⟩
    obtain ⟨k, hk⟩ : ∃ k, r.root = some k := by
      cases r with
      | hole => exact absurd rfl hr
      | leaf k v => exact ⟨k, rfl⟩
      | node k o l r => exact ⟨k, rfl⟩
    simp only [ASTree.insertChild, hright, hk]
    exact (allocateBelow_hung h (.inr rfl)).setLeftChild hroot

theorem insertChild_frame {t : ASTree} {i j k : ℕ} : (t.insertChild i j).1.nodeCounter = t.nodeCounter ∧
    (t.insertChild i j).1.nodeStack = t.nodeStack ∧ (t.insertChild i j).1.root = t.root ∧
    ((t.insertChild i j).1.nodes k).countsForDepth = (t.nodes k).countsForDepth := by
  simp only [ASTree.insertChild]
  split
  all_goals
    refine ⟨rfl, rfl, rfl, ?_⟩
    rw [modify_nodes]
    split_ifs <;> rfl

theorem popStack_ok {t : ASTree} (h : t.nodeStack ≠ []) :
    popStack t = .ok { t with nodeStack := t.nodeStack.tail } := by
  rw [popStack]
  split
  · exact absurd ‹_› h
  · simp [*]

theorem rebalance_spec {t : ASTree} {d : Context ℕ Op ℤ} {o : Op} {l r : Tree ℕ Op ℤ} {new : ℕ}
    (h : Rep t (d.plug (.node i o l r))) (hroot : (d.plug (.node i o l r)).root = t.root)
    (hp : (t.nodes new).countsForDepth = true → rotationsCurrent t.nodeCounter t i = true) :
    ∃ t' T, rebalance t i new = .ok t' ∧ Rep t' T ∧ T.root = t'.root ∧
      (d.plug (.node i o l r)).Reshaped .mul T ∧ t'.nodeCounter = t.nodeCounter ∧
      (t.nodeStack ≠ [] → t'.nodeStack ≠ []) := by
  rw [rebalance]
  split_ifs with hcfd
  · have hlen : d.ids.length < t.nodeCounter := by
      have := (d.ids_plug (.node i o l r)).length_eq ▸ h.length_le
      simp only [Tree.ids, List.length_cons, List.length_append] at this
      omega
    obtain ⟨t', T, x, hrun, hrep, hx, hres, hcount, hstack⟩ :=
      reorgFrom_spec h rfl (Nat.lt_of_le_of_lt d.depth_le hlen) (hp hcfd)
    refine ⟨{ t' with root := some x }, T, ?_, ⟨hrep.linked, hrep.nodup, hrep.bounded, hrep.fresh⟩,
      hx, hres, hcount, hstack⟩
    simp [hrun, bind, Except.bind, pure, Except.pure]
  · exact ⟨t, _, rfl, h, hroot, .refl _, rfl, id⟩

theorem attach_eq {t' : ASTree}
    (hrun : rebalance ((allocateBelow t stack tok i).insertChild i t.nodeCounter).1 i
      t.nodeCounter = .ok t') :
    attach (allocate t stack (tokenNode none tok)) i t.nodeCounter =
      if ((allocateBelow t stack tok i).insertChild i t.nodeCounter).2 then popStack t'
      else .ok t' := by
  simp only [attach, bind, Except.bind]
  rw [← allocateBelow, hrun]
  rfl

theorem attach_spec {T : Tree ℕ Op ℤ} {done : List Token} (h : Rep t T)
    (hroot : T.root = t.root) (hb : Builds done T) (hi : T.freeOwner = some i)
    (hstack : stack ≠ [])
    (hreb : (tokenNode none tok).countsForDepth = true → rotationsCurrent (t.nodeCounter + 1)
      ((allocateBelow t stack tok i).insertChild i t.nodeCounter).1 i = true) :
    ∃ t' T', attach (allocate t stack (tokenNode none tok)) i t.nodeCounter = .ok t' ∧
      Rep t' T' ∧ T'.root = t'.root ∧ Builds (tok :: done) T' ∧
      t'.nodeCounter = t.nodeCounter + 1 := by
  obtain ⟨c, d, o, l, r, rfl, hc, he, -, hrep⟩ :=
    @insertChild_spec _ stack tok _ _ h hi
  have htop : c ≠ .top := by
    rintro rfl
    simp [Context.plug, Tree.freeOwner] at hi
  obtain ⟨hcount, hstack', hroot', hcfd⟩ :=
    insertChild_frame (t := allocateBelow t stack tok i) (i := i) (j := t.nodeCounter)
      (k := t.nodeCounter)
  have hcfd' : ((allocateBelow t stack tok i).nodes t.nodeCounter).countsForDepth =
      (tokenNode none tok).countsForDepth := by
    rw [allocateBelow_nodes, if_pos rfl]
    cases tok <;> rfl
  have hr : (d.plug (.node i o l r)).root =
      ((allocateBelow t stack tok i).insertChild i t.nodeCounter).1.root := by
    rw [← he, hroot', Context.root_plug htop _ .hole, hroot]
    rfl
  obtain ⟨t', T, hrun, hrep', hrT, hres, hcount', hne⟩ := rebalance_spec (he ▸ hrep) hr
    (fun hnew : ((allocateBelow t stack tok i).insertChild i t.nodeCounter).1.nodes
      t.nodeCounter |>.countsForDepth ↦ by
      rw [hcfd, hcfd'] at hnew
      exact hcount ▸ hreb hnew)
  have hbuilds : Builds (tok :: done) T := .cons c t.nodeCounter tok hb hc (he ▸ hres)
  have hnext : t'.nodeCounter = t.nodeCounter + 1 := hcount'.trans hcount
  rw [attach_eq hrun]
  split_ifs
  · refine ⟨_, T, popStack_ok (hne (by rw [hstack']; exact hstack)), ?_, hrT, hbuilds,
      hnext⟩
    exact ⟨hrep'.linked, hrep'.nodup, hrep'.bounded, hrep'.fresh⟩
  · exact ⟨t', T, rfl, hrep', hrT, hbuilds, hnext⟩

end Insertion

theorem dropFull_ne_nil {nodes : ℕ → ASTNode} {st stack : List ℕ} {i : ℕ}
    (h : dropFull nodes st = .ok (i, stack)) : stack ≠ [] := by
  induction st with
  | nil => simp [dropFull] at h
  | cons j st ih =>
    rw [dropFull] at h
    split_ifs at h
    · exact ih h
    · obtain ⟨rfl, rfl⟩ := Prod.ext_iff.mp (Except.ok.inj h)
      simp

theorem buildStep_ok {s : BuildState} {tok : Token} {curr : Option ℕ} {stack : List ℕ} {t : ASTree}
    (hpoint : insertionPoint s = .ok (curr, stack)) (hv : ValidToken tok)
    (hplace : place (allocate s.tree stack (tokenNode none tok)) curr s.tree.nodeCounter = .ok t) :
    buildStep s tok = .ok ⟨pushOperator t s.tree.nodeCounter (tokenNode none tok).isLeaf, curr⟩ := by
  simp [buildStep, hpoint, makeNode_valid hv, hplace, bind, Except.bind, pure, Except.pure]

theorem pushOperator_rep {t : ASTree} {T : Tree ℕ Op ℤ} (h : Rep t T) (i : ℕ) (isLeaf : Bool) :
    Rep (pushOperator t i isLeaf) T ∧ (pushOperator t i isLeaf).root = t.root ∧
      (pushOperator t i isLeaf).nodeCounter = t.nodeCounter ∧
      (pushOperator t i isLeaf).nodes = t.nodes := by
  rw [pushOperator]
  split_ifs
  · exact ⟨h, rfl, rfl, rfl⟩
  · exact ⟨⟨h.linked, h.nodup, h.bounded, h.fresh⟩, rfl, rfl, rfl⟩

theorem buildStep_first {s : BuildState} {done : List Token} {tok : Token}
    (h : Built s done .hole) (hv : ValidToken tok) :
    ∃ s', buildStep s tok = .ok s' ∧
      Built s' (tok :: done) (tokenTree s.tree.nodeCounter tok) ∧
      s'.tree.nodeCounter = s.tree.nodeCounter + 1 ∧
      s'.tree.nodes = Function.update s.tree.nodes s.tree.nodeCounter (tokenNode none tok) := by
  have hroot : s.tree.root = none := h.root.symm
  have hpoint : insertionPoint s = .ok (s.currNode, []) := by
    simp [insertionPoint, h.stack rfl]
  have hplace : place (allocate s.tree [] (tokenNode none tok)) s.currNode s.tree.nodeCounter =
      .ok { allocate s.tree [] (tokenNode none tok) with root := some s.tree.nodeCounter } := by
    simp [place, allocate, hroot]
  have hnode : (allocate s.tree [] (tokenNode none tok)).nodes s.tree.nodeCounter =
      tokenNode none tok := by simp [allocate]
  have hparent : ((allocate s.tree [] (tokenNode none tok)).nodes s.tree.nodeCounter).parent =
      none := by
    rw [hnode]
    cases tok <;> rfl
  have hrep : Rep { allocate s.tree [] (tokenNode none tok) with root := some s.tree.nodeCounter }
      (tokenTree s.tree.nodeCounter tok) := by
    refine ⟨tokenTree_linked hnode, ?_, ?_, ?_⟩
    · cases tok <;> simp [tokenTree, Tree.ids]
    · cases tok <;> simpa [tokenTree, Tree.Bounded] using hparent
    · cases tok <;> simp [tokenTree, Tree.ids, allocate]
  obtain ⟨hrep', hroot', hcount, hnodes⟩ :=
    pushOperator_rep hrep s.tree.nodeCounter (tokenNode none tok).isLeaf
  refine ⟨_, buildStep_ok hpoint hv hplace, ⟨hrep', hroot'.symm ▸ ?_,
    .cons .top s.tree.nodeCounter tok h.builds trivial (.refl _), ?_⟩, hcount, hnodes⟩
  · cases tok <;> rfl
  · cases tok <;> simp [tokenTree]

theorem Built.root_isSome {s : BuildState} {done : List Token} {T : Tree ℕ Op ℤ}
    (h : Built s done T) (hT : T ≠ .hole) : ∃ k, s.tree.root = some k := by
  rw [← h.root]
  cases T with
  | hole => exact absurd rfl hT
  | leaf k v | node k o l r => exact ⟨k, rfl⟩

theorem Built.point {s : BuildState} {done : List Token} {T : Tree ℕ Op ℤ}
    (h : Built s done T) (hT : T ≠ .hole) (hi : insertionCurrent s = true) :
    ∃ i stack, T.freeOwner = some i ∧ insertionPoint s = .ok (some i, stack) ∧
      dropFull s.tree.nodes s.tree.nodeStack = .ok (i, stack) := by
  obtain ⟨k, hk⟩ := h.root_isSome hT
  cases hdrop : dropFull s.tree.nodes s.tree.nodeStack with
  | error f => simp [insertionCurrent, hk, hdrop] at hi
  | ok p =>
    obtain ⟨i, stack⟩ := p
    have howner : T.freeOwner = some i := by
      simpa [insertionCurrent, hk, hdrop, reachable_eq h.rep h.root] using hi
    refine ⟨i, stack, howner, ?_, rfl⟩
    rw [insertionPoint]
    split
    · simp [dropFull, *] at hdrop
    · simp [hdrop, bind, Except.bind, pure, Except.pure]

theorem buildStep_next {s : BuildState} {done : List Token} {tok : Token} {T : Tree ℕ Op ℤ}
    (h : Built s done T) (hT : T ≠ .hole) (hv : ValidToken tok)
    (hi : insertionCurrent s = true) (hr : rebalanceCurrent s tok = true) :
    ∃ i stack t' s' T', T.freeOwner = some i ∧
      dropFull s.tree.nodes s.tree.nodeStack = .ok (i, stack) ∧
      attach (allocate s.tree stack (tokenNode none tok)) i s.tree.nodeCounter = .ok t' ∧
      buildStep s tok = .ok s' ∧ s'.tree.nodes = t'.nodes ∧ s'.tree.root = t'.root ∧
      Built s' (tok :: done) T' ∧ s'.tree.nodeCounter = s.tree.nodeCounter + 1 := by
  obtain ⟨k, hk⟩ := h.root_isSome hT
  obtain ⟨i, stack, howner, hpoint, hdrop⟩ := h.point hT hi
  have hreb : (tokenNode none tok).countsForDepth = true →
      rotationsCurrent (s.tree.nodeCounter + 1)
        ((allocateBelow s.tree stack tok i).insertChild i s.tree.nodeCounter).1 i = true := by
    intro hcfd
    simp only [rebalanceCurrent, hk, hdrop, makeNode_valid hv, hcfd] at hr
    exact hr
  obtain ⟨t', T', hattach, hrep, hroot, hbuilds, hnext⟩ :=
    attach_spec h.rep h.root h.builds howner (dropFull_ne_nil hdrop) hreb
  have hplace : place (allocate s.tree stack (tokenNode none tok)) (some i)
      s.tree.nodeCounter = .ok t' := by simpa [place, allocate, hk] using hattach
  obtain ⟨hrep', hroot', hcount, hnodes⟩ :=
    pushOperator_rep hrep s.tree.nodeCounter (tokenNode none tok).isLeaf
  exact ⟨i, stack, t', _, T', howner, hdrop, hattach, buildStep_ok hpoint hv hplace, hnodes, hroot',
    ⟨hrep', hroot.trans hroot'.symm, hbuilds, fun he ↦ absurd he hbuilds.ne_hole⟩,
    hcount.trans hnext⟩

theorem buildStep_built {s : BuildState} {done : List Token} {tok : Token} {T : Tree ℕ Op ℤ}
    (h : Built s done T) (hv : ValidToken tok) (hi : insertionCurrent s = true)
    (hr : rebalanceCurrent s tok = true) :
    ∃ s' T', buildStep s tok = .ok s' ∧ Built s' (tok :: done) T' ∧
      s'.tree.nodeCounter = s.tree.nodeCounter + 1 := by
  by_cases hT : T = .hole
  · subst hT
    obtain ⟨s', hstep, hbuilt, hcount, -⟩ := buildStep_first h hv
    exact ⟨s', _, hstep, hbuilt, hcount⟩
  · obtain ⟨-, -, -, s', T', -, -, -, hstep, -, -, hbuilt, hcount⟩ := buildStep_next h hT hv hi hr
    exact ⟨s', T', hstep, hbuilt, hcount⟩

theorem buildLoop_built {toks done : List Token} {s : BuildState} {T : Tree ℕ Op ℤ}
    (h : Built s done T) (hv : ∀ tok ∈ toks, ValidToken tok) (hrun : runCurrent s toks = true) :
    ∃ s' T', toks.foldlM buildStep s = .ok s' ∧ Built s' (toks.reverse ++ done) T' := by
  induction toks generalizing s done T with
  | nil => exact ⟨s, T, rfl, h⟩
  | cons tok toks ih =>
    simp only [runCurrent, Bool.and_eq_true] at hrun
    obtain ⟨s₁, T₁, hstep, h₁, -⟩ := buildStep_built h (hv tok (by simp)) hrun.1.1 hrun.1.2
    rw [hstep] at hrun
    obtain ⟨s₂, T₂, hloop, h₂⟩ := ih h₁ (fun t ht ↦ hv t (by simp [ht])) hrun.2
    refine ⟨s₂, T₂, ?_, by simpa using h₂⟩
    simpa [List.foldlM_cons, hstep, bind, Except.bind] using hloop

/-- `build_tree` preserves the meaning of every sequence on which it always
inserts below the owner of the rightmost free slot, rotates only nodes with a
current parent link, and meets no literal above the range of `int`. -/
theorem buildTree_preserved (toks : List Token) (hwf : WellFormed toks)
    (hfit : ∀ tok ∈ toks, fitsInt tok = true)
    (hrun : runCurrent .init toks.reverse = true) : Preserved.{u} toks := by
  have hv : ∀ tok ∈ toks.reverse, ValidToken tok := fun tok htok ↦
    have htok := List.mem_reverse.mp htok
    ⟨hwf.2 tok htok, hfit tok htok⟩
  obtain ⟨s, T, hloop, h⟩ := buildLoop_built Built.init hv hrun
  rw [List.reverse_reverse, List.append_nil] at h
  obtain ⟨e, he, hleaves, hval⟩ := h.builds.meaning hwf.1
  refine ⟨s.tree, e, ?_, ?_, hleaves, hval⟩
  · simp [buildTree, hloop, bind, Except.bind, pure, Except.pure]
  · rw [reachable_eq h.rep h.root]
    exact he

section Products

def digit (c : Char) : Token := .num [c]

def times : Token := .op .mul

def sevenFactors : List Token :=
  [digit '0', digit '1', digit '2', digit '3', digit '4', digit '5', digit '6', times, times,
    times, times, times, times]

theorem sevenFactors_preserved : Preserved.{0} sevenFactors :=
  buildTree_preserved sevenFactors (by decide) (by decide) (by decide +kernel)

def nineFactors : List Token :=
  [digit '0', digit '1', digit '2', digit '3', digit '4', times, times, digit '5', times,
    digit '6', times, digit '7', times, times, digit '8', times, times]

def finalLeaves (toks : List Token) : Option (List ℤ) :=
  match buildTree toks with
  | .ok t => (toExpr? (reachable t)).map Expr.leaves
  | .error _ => none

theorem nineFactors_leaves : finalLeaves nineFactors = some [0, 1, 4, 5, 6, 7, 8] := by
  decide +kernel

/-- A rotation at a node with a stale parent link cuts two factors off. -/
theorem nineFactors_not_preserved : WellFormed nineFactors ∧ ¬ Preserved.{u} nineFactors := by
  refine ⟨by decide, fun ⟨t, e, hbuild, he, hleaves, _⟩ ↦ ?_⟩
  have h := nineFactors_leaves
  simp only [finalLeaves, hbuild, he, Option.map_some, hleaves] at h
  exact absurd h (by decide)

end Products

end FheBlockchain.Computer.AstBuild
