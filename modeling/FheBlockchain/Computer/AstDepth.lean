import FheBlockchain.Computer.AstBuild
import FheBlockchain.Library.Results

namespace FheBlockchain.Computer.AstDepth

open Ast AstMemory AstRotation AstMeaning AstBuild Library.HoleTree Library.Results

/-- Every node that `reorg_from` rotates or climbs from is, at that moment, a
child of the node its `parent` names. -/
def climbCurrent : ℕ → ASTree → ℕ → Bool
  | 0, _, _ => true
  | fuel + 1, t, node =>
    ((t.rotationAt node).isNone || parentCurrent t node) &&
      match t.reorgVisit node with
      | .error _ => true
      | .ok (t, curr) => parentCurrent t curr &&
        match (t.nodes curr).parent with
        | some p => climbCurrent fuel t p
        | none => true

def insertionClimbs (s : BuildState) (tok : Token) : Bool :=
  match s.tree.root, dropFull s.tree.nodes s.tree.nodeStack, makeNode tok with
  | some _, .ok (i, stack), .ok node =>
    let new := s.tree.nodeCounter
    let t := (allocate s.tree stack node).modify new fun n ↦ { n with parent := some i }
    !node.countsForDepth || climbCurrent t.nodeCounter (t.insertChild i new).1 i
  | _, _, _ => true

def runClimbs : BuildState → List Token → Bool
  | _, [] => true
  | s, tok :: toks => insertionCurrent s && insertionClimbs s tok &&
    match buildStep s tok with
    | .ok s => runClimbs s toks
    | .error _ => true

theorem climbCurrent_rotations {fuel : ℕ} {t : ASTree} {n : ℕ} (h : climbCurrent fuel t n = true) :
    rotationsCurrent fuel t n = true := by
  induction fuel generalizing t n with
  | zero => rfl
  | succ fuel ih =>
    simp only [climbCurrent, rotationsCurrent, Bool.and_eq_true] at h ⊢
    refine ⟨h.1, ?_⟩
    cases hrun : t.reorgVisit n with
    | error e => rfl
    | ok p =>
      obtain ⟨t', curr⟩ := p
      simp only [hrun, Bool.and_eq_true] at h ⊢
      cases hp : (t'.nodes curr).parent with
      | none => rfl
      | some q =>
        simp only [hp] at h ⊢
        exact ih h.2.2

theorem insertionClimbs_rebalance {s : BuildState} {tok : Token}
    (h : insertionClimbs s tok = true) : rebalanceCurrent s tok = true := by
  rw [insertionClimbs] at h
  rw [rebalanceCurrent]
  split
  · simp only [*, Bool.or_eq_true] at h ⊢
    exact h.imp id climbCurrent_rotations
  · rfl

section Caching

variable {t t' : ASTree} {c : Context ℕ Op ℤ} {s l r : Tree ℕ Op ℤ} {n : ℕ} {o : Op}

def Marked (t : ASTree) : Prop :=
  ∀ i, (t.nodes i).countsForDepth = decide ((t.nodes i).op = some .mul)

theorem Marked.congr (h : Marked t) (he : ∀ i, kind (t'.nodes i) = kind (t.nodes i)) :
    Marked t' := by
  intro i
  obtain ⟨hcounts, hop⟩ := Prod.ext_iff.mp (he i)
  rw [show (t'.nodes i).countsForDepth = (t.nodes i).countsForDepth from hcounts,
    show (t'.nodes i).op = (t.nodes i).op from hop]
  exact h i

def CachedBeside (nodes : ℕ → ASTNode) : Context ℕ Op ℤ → Prop
  | .top => True
  | .left _ _ c s | .right _ _ s c => DepthsCached nodes s ∧ CachedBeside nodes c

theorem CachedBeside.congr {nodes nodes' : ℕ → ASTNode} (h : CachedBeside nodes c)
    (he : ∀ i ∈ c.ids, (nodes' i).depth = (nodes i).depth) : CachedBeside nodes' c := by
  induction c with
  | top => trivial
  | left i o c s ih | right i o s c ih =>
    simp only [Context.ids, List.mem_cons, List.mem_append] at he
    exact ⟨h.1.congr fun j hj ↦ he j (.inr (.inl hj)), ih h.2 fun j hj ↦ he j (.inr (.inr hj))⟩

theorem cachedBeside_of_plug {nodes : ℕ → ASTNode} (h : DepthsCached nodes (c.plug s)) :
    DepthsCached nodes s ∧ CachedBeside nodes c := by
  induction c generalizing s with
  | top => exact ⟨h, trivial⟩
  | left i o c r ih =>
    obtain ⟨⟨-, hs, hr⟩, hc⟩ := ih h
    exact ⟨hs, hr, hc⟩
  | right i o l c ih =>
    obtain ⟨⟨-, hl, hs⟩, hc⟩ := ih h
    exact ⟨hs, hl, hc⟩

theorem cached_plug_congr {nodes : ℕ → ASTNode} {s' : Tree ℕ Op ℤ}
    (h : DepthsCached nodes (c.plug s)) (hs : DepthsCached nodes s')
    (he : multDepth s' = multDepth s) : DepthsCached nodes (c.plug s') := by
  induction c generalizing s s' with
  | top => exact hs
  | left i o c r ih =>
    obtain ⟨⟨hi, -, hr⟩, -⟩ := cachedBeside_of_plug (c := c) h
    have hnode : multDepth (.node i o s' r) = multDepth (.node i o s r) := by
      simp only [multDepth, Tree.weight] at he ⊢
      rw [he]
    exact ih h ⟨hi.trans (by rw [hnode]), hs, hr⟩ hnode
  | right i o l c ih =>
    obtain ⟨⟨hi, hl, -⟩, -⟩ := cachedBeside_of_plug (c := c) h
    have hnode : multDepth (.node i o l s') = multDepth (.node i o l s) := by
      simp only [multDepth, Tree.weight] at he ⊢
      rw [he]
    exact ih h ⟨hi.trans (by rw [hnode]), hl, hs⟩ hnode

theorem refreshDepth_depth (i : ℕ) : ((t.refreshDepth n).nodes i).depth =
    if i = n then (if (t.nodes n).countsForDepth then (1 : ℤ) else 0) +
      max (t.getDepth (t.nodes n).leftChild) (t.getDepth (t.nodes n).rightChild)
    else (t.nodes i).depth := by
  rw [ASTree.refreshDepth]
  split_ifs with hcounts hi hi
  · rw [updateDepth_depth, if_pos hi]
  · rw [updateDepth_depth, if_neg hi]
  · rw [modify_nodes, if_pos hi, hi, Int.zero_add]
  · rw [modify_nodes, if_neg hi]

theorem refreshDepth_kind (i : ℕ) : kind ((t.refreshDepth n).nodes i) = kind (t.nodes i) := by
  rw [ASTree.refreshDepth]
  split_ifs
  all_goals
    refine modify_keeps kind ?_ t n i
    exact fun _ ↦ rfl

theorem refreshDepth_cached (h : Rep t (c.plug (.node n o l r))) (hm : Marked t)
    (hl : DepthsCached t.nodes l) (hr : DepthsCached t.nodes r) :
    DepthsCached (t.refreshDepth n).nodes (.node n o l r) := by
  obtain ⟨⟨⟨-, hop⟩, hleft, hright, -, -⟩, -⟩ := (linked_plug ..).mp h.linked
  have hnd := ((nodup_plug _).mp h.nodup).of_append_left
  simp only [Tree.ids, List.nodup_cons, List.mem_append, not_or] at hnd
  have hkeep {s : Tree ℕ Op ℤ} (hs : DepthsCached t.nodes s) (hn : n ∉ s.ids) :
      DepthsCached (t.refreshDepth n).nodes s :=
    hs.congr fun i hi ↦ by rw [refreshDepth_depth, if_neg (ne_of_mem_of_not_mem hi hn)]
  refine ⟨?_, hkeep hl hnd.1.1, hkeep hr hnd.1.2⟩
  rw [refreshDepth_depth, if_pos rfl, hm n, hop, hleft, hright, hl.getDepth, hr.getDepth]
  cases o <;> grind [multDepth, Tree.weight]

/-- The climb of `reorg_from` makes the depths right, from a node whose own depth
is out of date up to the root. -/
theorem reorgFrom_cached {fuel : ℕ} (h : Rep t (c.plug (.node n o l r))) (hm : Marked t)
    (hl : DepthsCached t.nodes l) (hr : DepthsCached t.nodes r) (hc : CachedBeside t.nodes c)
    (hfuel : c.depth < fuel) (hclimb : climbCurrent fuel t n = true) :
    ∃ t' T x, ASTree.reorgFrom fuel t n = .ok (t', x) ∧ Rep t' T ∧ T.root = some x ∧
      DepthsCached t'.nodes T ∧ Marked t' := by
  induction fuel generalizing t c n o l r with
  | zero => omega
  | succ fuel ih =>
    simp only [climbCurrent, Bool.and_eq_true] at hclimb
    obtain ⟨t₁, s₁, x, hrun, hrep, hx, -, -, -, hkeeps⟩ :=
      reorgVisit_spec h rfl fun hrot ↦ by
        simpa [Option.isNone_iff_eq_none, hrot] using hclimb.1
    have hm₁ : Marked t₁ := hm.congr fun i ↦ (hkeeps.kind i).trans (refreshDepth_kind i)
    have hs₁ : DepthsCached t₁.nodes s₁ := hkeeps.cached (refreshDepth_cached h hm hl hr)
    have hc₁ : CachedBeside t₁.nodes c := hc.congr fun i hi ↦ by
      have hi' : i ∉ (.node n o l r : Tree ℕ Op ℤ).ids := fun hmem ↦
        List.disjoint_of_nodup_append ((nodup_plug _).mp h.nodup) hmem hi
      have hin : i ≠ n := fun he ↦ hi' (he ▸ List.mem_cons_self)
      rw [hkeeps.depth i hi', refreshDepth_depth, if_neg hin]
    simp only [hrun, Bool.and_eq_true] at hclimb
    have hparent := hrep.parent_eq_owner hx hclimb.2.1
    simp only [ASTree.reorgFrom, hrun, bind, Except.bind]
    cases c with
    | top =>
      rw [owner] at hparent
      rw [hparent]
      exact ⟨t₁, s₁, x, rfl, hrep, hx, hs₁, hm₁⟩
    | left i o' c r' =>
      rw [owner] at hparent
      simp only [hparent] at hclimb ⊢
      rw [Context.depth] at hfuel
      exact ih (c := c) hrep hm₁ hs₁ hc₁.1 hc₁.2 (by omega) hclimb.2.2
    | right i o' l' c =>
      rw [owner] at hparent
      simp only [hparent] at hclimb ⊢
      rw [Context.depth] at hfuel
      exact ih (c := c) hrep hm₁ hc₁.1 hs₁ hc₁.2 (by omega) hclimb.2.2

end Caching

section Insertion

variable {t t' : ASTree} {T : Tree ℕ Op ℤ} {stack : List ℕ} {tok : Token} {i : ℕ}

def inserted (t : ASTree) (stack : List ℕ) (tok : Token) (i : ℕ) : ASTree :=
  ((allocateBelow t stack tok i).insertChild i t.nodeCounter).1

theorem inserted_keeps {α : Type} (f : ASTNode → α)
    (hl : ∀ n q, f { n with leftChild := q } = f n) (hr : ∀ n q, f { n with rightChild := q } = f n)
    (j : ℕ) : f ((inserted t stack tok i).nodes j) =
      if j = t.nodeCounter then f (tokenNode (some i) tok) else f (t.nodes j) := by
  have hchild : f ((inserted t stack tok i).nodes j) = f ((allocateBelow t stack tok i).nodes j) := by
    rw [inserted, ASTree.insertChild]
    split
    · exact modify_keeps f (fun n ↦ hr n _) _ i j
    · exact modify_keeps f (fun n ↦ hl n _) _ i j
  rw [hchild, allocateBelow_nodes]
  split_ifs <;> rfl

theorem inserted_depth (j : ℕ) : ((inserted t stack tok i).nodes j).depth =
    if j = t.nodeCounter then (tokenNode none tok).depth else (t.nodes j).depth := by
  rw [inserted_keeps ASTNode.depth (fun _ _ ↦ rfl) fun _ _ ↦ rfl]
  cases tok <;> rfl

theorem inserted_marked (hm : Marked t) : Marked (inserted t stack tok i) := by
  intro j
  have hkind := @inserted_keeps t stack tok i _ kind (fun _ _ ↦ rfl) (fun _ _ ↦ rfl) j
  split_ifs at hkind
  · obtain ⟨hcounts, hop⟩ := Prod.ext_iff.mp hkind
    simp only [kind] at hcounts hop
    rw [hcounts, hop]
    cases tok with
    | num digits => rfl
    | op o => cases o <;> rfl
  · obtain ⟨hcounts, hop⟩ := Prod.ext_iff.mp hkind
    simp only [kind] at hcounts hop
    rw [hcounts, hop]
    exact hm j

theorem inserted_cached {c : Context ℕ Op ℤ} (stack : List ℕ) (tok : Token) (i : ℕ)
    (h : Rep t (c.plug .hole))
    (hd : DepthsCached t.nodes (c.plug .hole)) :
    DepthsCached (inserted t stack tok i).nodes (tokenTree t.nodeCounter tok) ∧
      CachedBeside (inserted t stack tok i).nodes c ∧
      ((tokenNode none tok).countsForDepth = false →
        DepthsCached (inserted t stack tok i).nodes (c.plug (tokenTree t.nodeCounter tok))) := by
  have hold : DepthsCached (inserted t stack tok i).nodes (c.plug .hole) :=
    hd.congr fun j hj ↦ by rw [inserted_depth, if_neg (Nat.ne_of_lt (h.fresh j hj))]
  have htok : DepthsCached (inserted t stack tok i).nodes (tokenTree t.nodeCounter tok) := by
    cases tok with
    | num digits => exact (inserted_depth _).trans (if_pos rfl)
    | op o =>
      refine ⟨((inserted_depth _).trans (if_pos rfl)).trans ?_, trivial, trivial⟩
      cases o <;> rfl
  refine ⟨htok, (cachedBeside_of_plug hold).2, fun hcounts ↦ cached_plug_congr hold htok ?_⟩
  cases tok with
  | num digits => rfl
  | op o => cases o <;> first | rfl | cases hcounts

theorem rebalance_cached (h : Rep t T) (hroot : T.root = t.root) (hm : Marked t)
    (hd : DepthsCached t.nodes T) (hi : T.freeOwner = some i)
    (hclimb : (tokenNode none tok).countsForDepth = true →
      climbCurrent (t.nodeCounter + 1) (inserted t stack tok i) i = true) :
    ∃ t' T', rebalance (inserted t stack tok i) i t.nodeCounter = .ok t' ∧ Rep t' T' ∧
      T'.root = t'.root ∧ DepthsCached t'.nodes T' ∧ Marked t' := by
  obtain ⟨c, d, o, l, r, rfl, -, he, hshape, hrep⟩ := @insertChild_spec _ stack tok _ _ h hi
  obtain ⟨htok, hbeside, hother⟩ := inserted_cached stack tok i h hd
  replace hrep : Rep (inserted t stack tok i) (c.plug (tokenTree t.nodeCounter tok)) := hrep
  have hframe := @insertChild_frame (allocateBelow t stack tok i) i t.nodeCounter t.nodeCounter
  have hcount : (inserted t stack tok i).nodeCounter = t.nodeCounter + 1 := hframe.1
  have hroot' : (inserted t stack tok i).root = t.root := hframe.2.2.1
  have hm' : Marked (inserted t stack tok i) := inserted_marked hm
  have hcounts : ((inserted t stack tok i).nodes t.nodeCounter).countsForDepth =
      (tokenNode none tok).countsForDepth := by
    rw [inserted_keeps ASTNode.countsForDepth (fun _ _ ↦ rfl) fun _ _ ↦ rfl, if_pos rfl]
    cases tok <;> rfl
  rw [rebalance, hcounts]
  split_ifs with hmul
  · rw [he] at hrep
    have hparts : DepthsCached (inserted t stack tok i).nodes l ∧
        DepthsCached (inserted t stack tok i).nodes r ∧
        CachedBeside (inserted t stack tok i).nodes d := by
      rcases hshape with ⟨rfl, rfl⟩ | ⟨rfl, rfl⟩
      · exact ⟨hbeside.1, htok, hbeside.2⟩
      · exact ⟨htok, hbeside.1, hbeside.2⟩
    have hfuel : d.depth < (inserted t stack tok i).nodeCounter := by
      have hlen := (d.ids_plug (.node i o l r)).length_eq ▸ hrep.length_le
      have hdepth := d.depth_le
      simp only [Tree.ids, List.length_cons, List.length_append] at hlen
      omega
    obtain ⟨t', T', x, hrun, hrep', hx, hd', hm''⟩ := reorgFrom_cached hrep hm' hparts.1 hparts.2.1
      hparts.2.2 hfuel (hcount.symm ▸ hclimb hmul)
    refine ⟨{ t' with root := some x }, T', ?_, ⟨hrep'.linked, hrep'.nodup, hrep'.bounded,
      hrep'.fresh⟩, hx, hd', hm''⟩
    simp [hrun, bind, Except.bind, pure, Except.pure]
  · refine ⟨_, _, rfl, hrep, ?_, hother (Bool.eq_false_iff.mpr hmul), hm'⟩
    have htop : c ≠ .top := by
      rintro rfl
      simp [Context.plug, Tree.freeOwner] at hi
    rw [hroot', Context.root_plug htop _ .hole, hroot]

theorem attach_cached (h : Rep t T) (hroot : T.root = t.root) (hm : Marked t)
    (hd : DepthsCached t.nodes T) (hi : T.freeOwner = some i)
    (hclimb : (tokenNode none tok).countsForDepth = true →
      climbCurrent (t.nodeCounter + 1) (inserted t stack tok i) i = true)
    (hattach : attach (allocate t stack (tokenNode none tok)) i t.nodeCounter = .ok t') :
    ∃ T', Rep t' T' ∧ T'.root = t'.root ∧ DepthsCached t'.nodes T' ∧ Marked t' := by
  obtain ⟨t₁, T', hrun, hrep, hr, hd', hm'⟩ := rebalance_cached h hroot hm hd hi hclimb
  rw [attach_eq hrun] at hattach
  split_ifs at hattach
  · rw [popStack] at hattach
    split at hattach
    · cases hattach
    · obtain rfl := Except.ok.inj hattach
      exact ⟨T', ⟨hrep.linked, hrep.nodup, hrep.bounded, hrep.fresh⟩, hr, hd', hm'⟩
  · obtain rfl := Except.ok.inj hattach
    exact ⟨T', hrep, hr, hd', hm'⟩

end Insertion

theorem linked_unique {nodes : ℕ → ASTNode} {T T' : Tree ℕ Op ℤ} (h : Linked nodes T)
    (h' : Linked nodes T') (hr : T.root = T'.root) : T = T' := by
  have hT := readTree_linked h (Nat.le_add_right T.ids.length T'.ids.length)
  have hT' := readTree_linked h' (Nat.le_add_left T'.ids.length T.ids.length)
  rw [hr, hT'] at hT
  exact hT.symm

section Building

variable {s : BuildState} {done toks : List Token} {tok : Token} {T : Tree ℕ Op ℤ}

theorem buildStep_cached (h : Built s done T) (hm : Marked s.tree)
    (hd : DepthsCached s.tree.nodes T) (hv : ValidToken tok) (hi : insertionCurrent s = true)
    (hc : insertionClimbs s tok = true) :
    ∃ s' T', buildStep s tok = .ok s' ∧ Built s' (tok :: done) T' ∧ Marked s'.tree ∧
      DepthsCached s'.tree.nodes T' := by
  by_cases hT : T = .hole
  · subst hT
    obtain ⟨s', hstep, hbuilt, -, hnodes⟩ := buildStep_first h hv
    refine ⟨s', _, hstep, hbuilt, fun j ↦ ?_, ?_⟩
    · rw [hnodes, Function.update_apply]
      split_ifs
      · cases tok with
        | num digits => rfl
        | op o => cases o <;> rfl
      · exact hm j
    · rw [hnodes]
      cases tok with
      | num digits => simp [tokenTree, DepthsCached, tokenNode, ASTNode.operand]
      | op o =>
        cases o <;> simp [tokenTree, DepthsCached, tokenNode, ASTNode.operator, multDepth,
          Tree.weight]
  · obtain ⟨i, stack, t', s', T', howner, hdrop, hattach, hstep, hnodes, hroot, hbuilt, -⟩ :=
      buildStep_next h hT hv hi (insertionClimbs_rebalance hc)
    obtain ⟨k, hk⟩ := h.root_isSome hT
    have hclimb : (tokenNode none tok).countsForDepth = true →
        climbCurrent (s.tree.nodeCounter + 1) (inserted s.tree stack tok i) i = true := by
      intro hcounts
      simp only [insertionClimbs, hk, hdrop, makeNode_valid hv, hcounts] at hc
      exact hc
    obtain ⟨T'', hrep, hr, hd', hm'⟩ := attach_cached h.rep h.root hm hd howner hclimb hattach
    have hsame : T'' = T' := by
      refine linked_unique hrep.linked (hnodes ▸ hbuilt.rep.linked) ?_
      rw [hr, hbuilt.root, hroot]
    refine ⟨s', T', hstep, hbuilt, fun j ↦ ?_, ?_⟩
    · rw [hnodes]
      exact hm' j
    · rw [hnodes, ← hsame]
      exact hd'

/-- `stoi` throws on a literal above the range of `int`. -/
theorem fitsInt_of_buildStep {s' : BuildState} (h : buildStep s tok = .ok s')
    (hnum : isNumeral tok = true) : fitsInt tok = true := by
  obtain ⟨p, _, h⟩ := bind_eq_ok.mp h
  obtain ⟨node, hnode, -⟩ := bind_eq_ok.mp h
  cases tok with
  | op o => rfl
  | num digits =>
    obtain ⟨v, hv, -⟩ := bind_eq_ok.mp hnode
    simp only [isNumeral, Bool.and_eq_true, decide_eq_true_eq] at hnum
    rw [stoi, if_neg (by simp [hnum.1, hnum.2])] at hv
    split_ifs at hv with hfit
    exact decide_eq_true hfit

theorem buildLoop_cached {s' : BuildState} (h : Built s done T) (hm : Marked s.tree)
    (hd : DepthsCached s.tree.nodes T) (hnum : ∀ tok ∈ toks, isNumeral tok = true)
    (hloop : toks.foldlM buildStep s = .ok s') (hrun : runClimbs s toks = true) :
    ∃ T', Built s' (toks.reverse ++ done) T' ∧ DepthsCached s'.tree.nodes T' := by
  induction toks generalizing s done T with
  | nil =>
    obtain rfl := Except.ok.inj hloop
    exact ⟨T, h, hd⟩
  | cons tok toks ih =>
    simp only [runClimbs, Bool.and_eq_true] at hrun
    rw [List.foldlM_cons, bind_eq_ok] at hloop
    obtain ⟨s₀, hs₀, hloop⟩ := hloop
    have hnum₀ := hnum tok List.mem_cons_self
    obtain ⟨s₁, T₁, hstep, h₁, hm₁, hd₁⟩ :=
      buildStep_cached h hm hd ⟨hnum₀, fitsInt_of_buildStep hs₀ hnum₀⟩ hrun.1.1 hrun.1.2
    obtain rfl := Except.ok.inj (hstep.symm.trans hs₀)
    rw [hstep] at hrun
    obtain ⟨T', hbuilt, hcached⟩ :=
      ih h₁ hm₁ hd₁ (fun t ht ↦ hnum t (List.mem_cons_of_mem tok ht)) hloop hrun.2
    exact ⟨T', by simpa using hbuilt, hcached⟩

end Building

/-- The `depth_` of every node below `root_` is its multiplicative depth, and so
is the difficulty that is read from the root. -/
def RightDepths (t : ASTree) : Prop :=
  DepthsCached t.nodes (reachable t) ∧ t.getDepth t.root = multDepth (reachable t)

/-- The depths are right when `build_tree` finishes if every token goes below the
owner of the rightmost free slot and no climb follows a parent link that is out
of date. -/
theorem buildTree_depths {toks : List Token} {t : ASTree} (hwf : WellFormed toks)
    (hbuild : buildTree toks = .ok t) (hrun : runClimbs .init toks.reverse = true) :
    RightDepths t := by
  obtain ⟨s, hloop, he⟩ := bind_eq_ok.mp hbuild
  obtain rfl := Except.ok.inj he
  have hmarked : Marked BuildState.init.tree := fun _ ↦ rfl
  obtain ⟨T, hbuilt, hcached⟩ := buildLoop_cached Built.init hmarked trivial
    (fun tok htok ↦ hwf.2 tok (List.mem_reverse.mp htok)) hloop hrun
  have hT := reachable_eq hbuilt.rep hbuilt.root
  rw [RightDepths, hT, ← hbuilt.root]
  exact ⟨hcached, hcached.getDepth⟩

section Products

theorem sevenFactors_depths : ∃ t, buildTree sevenFactors = .ok t ∧ RightDepths t := by
  have hok : (buildTree sevenFactors).isOk = true := by decide +kernel
  cases hbuild : buildTree sevenFactors with
  | ok t => exact ⟨t, rfl, buildTree_depths (by decide) hbuild (by decide +kernel)⟩
  | error e =>
    rw [hbuild] at hok
    exact absurd hok Bool.false_ne_true

/-- `0 * (1 * (2 * ((3 * 4) * (5 * (6 * 7)))))` -/
def eightFactors : List Token :=
  [digit '0', digit '1', digit '2', digit '3', digit '4', times, digit '5', digit '6', digit '7',
    times, times, times, times, times, times]

/-- The tree is complete, but its root has the depth 3 in place of 4, since a
climb passes over a node. -/
theorem eightFactors_depth : ¬ ∀ (toks : List Token) (t : ASTree), WellFormed toks →
    buildTree toks = .ok t → RightDepths t := by
  intro h
  have hok : (buildTree eightFactors).toOption.all
      (fun t ↦ t.getDepth t.root = multDepth (reachable t)) = false := by decide +kernel
  cases hbuild : buildTree eightFactors with
  | ok t =>
    have hdepth := (h eightFactors t (by decide) hbuild).2
    simp [hbuild, hdepth, Except.toOption] at hok
  | error e => simp [hbuild, Except.toOption] at hok

end Products

end FheBlockchain.Computer.AstDepth
