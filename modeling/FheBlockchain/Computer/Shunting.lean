import FheBlockchain.Computer.Expressions
import FheBlockchain.Library.Results

namespace FheBlockchain.Computer.Shunting

open Ast Expressions Core.Transactions Library.Results

/-- The expressions that are to be written down. A literal keeps its digits. -/
inductive Expression
  | literal (digits : List Char)
  | binary (o : Op) (l r : Expression)
deriving DecidableEq, Repr

namespace Expression

def postorder : Expression → List Token
  | literal digits => [.num digits]
  | binary o l r => l.postorder ++ r.postorder ++ [.op o]

def operators : Expression → ℕ
  | literal _ => 0
  | binary _ l r => l.operators + r.operators + 1

end Expression

inductive Writing
  | literal (digits : List Char)
  | binary (o : Op) (l r : Writing)
  | parens (w : Writing)
  | spaceBefore (w : Writing)
  | spaceAfter (w : Writing)
deriving DecidableEq, Repr

def opChar : Op → Char
  | .add => '+'
  | .sub => '-'
  | .mul => '*'

def encode (text : List Char) : Bytes := text.map fun c ↦ UInt8.ofNat c.toNat

namespace Writing

def text : Writing → List Char
  | literal digits => digits
  | binary o l r => l.text ++ opChar o :: r.text
  | parens w => '(' :: w.text ++ [')']
  | spaceBefore w => ' ' :: w.text
  | spaceAfter w => w.text ++ [' ']

def expression : Writing → Expression
  | literal digits => .literal digits
  | binary o l r => .binary o l.expression r.expression
  | parens w | spaceBefore w | spaceAfter w => w.expression

/-- The writing has digits for its literals and the parentheses it needs where
operators below the precedence `p` must not stand free. -/
def Proper : ℕ → Writing → Prop
  | _, literal digits => digits ≠ [] ∧ digits.all Char.isDigit = true
  | p, binary o l r =>
    p ≤ precedence o ∧ l.Proper (precedence o) ∧ r.Proper (precedence o + 1)
  | _, parens w => w.Proper 0
  | p, spaceBefore w | p, spaceAfter w => w.Proper p

instance decidableProper : (p : ℕ) → (w : Writing) → Decidable (w.Proper p)
  | _, literal _ => inferInstanceAs (Decidable (_ ∧ _))
  | _, binary o l r =>
    have := decidableProper (precedence o) l
    have := decidableProper (precedence o + 1) r
    inferInstanceAs (Decidable (_ ∧ _ ∧ _))
  | _, parens w => decidableProper 0 w
  | p, spaceBefore w | p, spaceAfter w => decidableProper p w

def enclosed : Writing → Bool
  | literal _ | binary _ _ _ => false
  | parens _ => true
  | spaceBefore w | spaceAfter w => w.enclosed

theorem text_pos {p : ℕ} {w : Writing} (h : w.Proper p) : 0 < w.text.length := by
  induction w generalizing p with
  | literal digits => exact List.length_pos_iff.mpr h.1
  | binary o l r ihl ihr => simp [text]
  | parens w ih | spaceBefore w ih | spaceAfter w ih => simp [text]

end Writing

section Steps

variable {n i : ℕ} {s : ShuntState} {c : Char}

def shuntFrom (n i : ℕ) (s : ShuntState) (text : List Char) : Result ShuntState :=
  ((encode text).zipIdx i).foldlM (shuntStep n) s

theorem shuntFrom_append (n i : ℕ) (s : ShuntState) (u v : List Char) :
    shuntFrom n i s (u ++ v) =
      shuntFrom n i s u >>= fun s' ↦ shuntFrom n (i + u.length) s' v := by
  simp only [shuntFrom, encode, List.map_append, List.zipIdx_append, List.foldlM_append,
    List.length_map]

theorem shuntFrom_cons (n i : ℕ) (s : ShuntState) (c : Char) (text : List Char) :
    shuntFrom n i s (c :: text) =
      shuntStep n s (UInt8.ofNat c.toNat, i) >>= fun s' ↦ shuntFrom n (i + 1) s' text := rfl

theorem toNat_of_isDigit (h : c.isDigit = true) :
    Char.ofNat (UInt8.ofNat c.toNat).toNat = c := by
  have hle : c.toNat ≤ 57 := by
    simp only [Char.isDigit, Bool.and_eq_true, decide_eq_true_eq] at h
    exact h.2
  rw [UInt8.toNat_ofNat', Nat.mod_eq_of_lt (by omega), Char.ofNat_toNat]

theorem shuntStep_digit (h : c.isDigit = true) :
    shuntStep n s (UInt8.ofNat c.toNat, i) = .ok (shuntDigit s c) := by
  rw [shuntStep, toNat_of_isDigit h]
  exact if_pos h

theorem shuntStep_space :
    shuntStep n s (UInt8.ofNat ' '.toNat, i) = .ok { s with foundNum := false } := rfl

theorem shuntStep_open : shuntStep n s (UInt8.ofNat '('.toNat, i) = .ok { s with
    operatorStack := .paren :: s.operatorStack
    foundNum := false
    foundOperationOperator := true } := rfl

theorem shuntStep_close : shuntStep n s (UInt8.ofNat ')'.toNat, i) =
    shuntClose { s with foundNum := false } := rfl

theorem shuntStep_operator (o : Op) : shuntStep n s (UInt8.ofNat (opChar o).toNat, i) =
    shuntOperator o (i = 0 || i = n - 1) { s with foundNum := false } := by
  cases o <;> rfl

end Steps

section Operands

variable {n i : ℕ} {s : ShuntState}

theorem popOperators_append {p : Op → Bool} (pending : List Op) (q : List Token)
    (stack : List Operator) (hp : ∀ o ∈ pending, p o = true)
    (hstack : ∀ o ∈ stack.head?, ∀ o', o = .op o' → p o' = false) :
    popOperators p q (pending.map .op ++ stack) = ((pending.map .op).reverse ++ q, stack) := by
  induction pending generalizing q with
  | nil =>
    cases stack with
    | nil => rfl
    | cons top stack =>
      cases top with
      | paren => rfl
      | op o => simp [popOperators, hstack (.op o) rfl o rfl]
  | cons o pending ih =>
    simp only [List.map_cons, List.cons_append, popOperators, hp o (by simp), if_true]
    rw [ih _ fun o' ho' ↦ hp o' (by simp [ho'])]
    simp

theorem shuntFrom_digits {digits pre : List Char} {rest : List Token}
    (hd : ∀ c ∈ digits, c.isDigit = true) (hnum : s.foundNum = true)
    (hq : s.outputQ = .num pre :: rest) (hop : s.foundOperationOperator = false) :
    shuntFrom n i s digits = .ok { s with outputQ := .num (pre ++ digits) :: rest } := by
  induction digits generalizing s i pre with
  | nil =>
    rw [List.append_nil, ← hq]
    rfl
  | cons c digits ih =>
    have hstep : shuntDigit s c = { s with outputQ := .num (pre ++ [c]) :: rest } := by
      simp only [shuntDigit, hnum, hq, ← hop]
    rw [shuntFrom_cons, shuntStep_digit (hd c (by simp)), hstep]
    have hrest := @ih (i + 1) { s with outputQ := .num (pre ++ [c]) :: rest } (pre ++ [c])
      (fun c' hc' ↦ hd c' (by simp [hc'])) hnum rfl hop
    simpa [bind, Except.bind] using hrest

theorem shuntFrom_literal {digits : List Char} (hne : digits ≠ [])
    (hd : digits.all Char.isDigit = true) (hnum : s.foundNum = false) :
    shuntFrom n i s digits = .ok { s with
      outputQ := .num digits :: s.outputQ
      foundNum := true
      foundOperationOperator := false } := by
  rw [List.all_eq_true] at hd
  cases digits with
  | nil => exact absurd rfl hne
  | cons c digits =>
    have hstep : shuntDigit s c = { s with
        outputQ := .num [c] :: s.outputQ
        foundNum := true
        foundOperationOperator := false } := by
      simp only [shuntDigit, hnum]
    rw [shuntFrom_cons, shuntStep_digit (hd c (by simp)), hstep]
    exact @shuntFrom_digits n (i + 1) { s with
        outputQ := .num [c] :: s.outputQ
        foundNum := true
        foundOperationOperator := false } digits [c] s.outputQ
      (fun c' hc' ↦ hd c' (List.mem_cons_of_mem c hc')) rfl rfl rfl

/-- What the loop of `shunt` has done when it has read a writing: popping the
operators that it left pending completes the postorder of the expression. -/
structure Shunted (s s' : ShuntState) (p : ℕ) (e : Expression) (pending : List Op) : Prop where
  stack : s'.operatorStack = pending.map .op ++ s.operatorStack
  outputQ : (pending.map .op).reverse ++ s'.outputQ = e.postorder.reverse ++ s.outputQ
  binding : ∀ o ∈ pending, p ≤ precedence o
  foundOperationOperator : s'.foundOperationOperator = false

def TopBelow (p : ℕ) (s : ShuntState) : Prop :=
  ∀ top ∈ s.operatorStack.head?, ∀ o, top = .op o → precedence o < p

theorem shuntClose_pending {pending : List Op} {stack : List Operator}
    (h : s.operatorStack = pending.map .op ++ .paren :: stack) :
    shuntClose s = .ok { s with
      outputQ := (pending.map .op).reverse ++ s.outputQ
      operatorStack := stack
      foundOperationOperator := false } := by
  rw [shuntClose, h, popOperators_append pending _ _ (fun _ _ ↦ rfl) (by simp)]

/-- An operator that stands inside the expression, after an operand, sends the
pending operators that bind at least as strongly to the queue. -/
theorem shuntOperator_pending {o : Op} {pending : List Op} {stack : List Operator}
    (h : s.operatorStack = pending.map .op ++ stack) (hfound : s.foundOperationOperator = false)
    (hpending : ∀ o' ∈ pending, precedence o ≤ precedence o')
    (hstack : ∀ top ∈ stack.head?, ∀ o', top = .op o' → precedence o' < precedence o) :
    shuntOperator o false s = .ok { s with
      outputQ := (pending.map .op).reverse ++ s.outputQ
      operatorStack := .op o :: stack
      foundOperationOperator := true } := by
  rw [shuntOperator, if_neg (by simp [hfound]), if_neg Bool.false_ne_true, h,
    popOperators_append pending _ _ (by simpa using hpending) (by simpa using hstack)]

theorem shunt_writing {w : Writing} {p : ℕ} (h : w.Proper p) (hnum : s.foundNum = false)
    (htop : TopBelow p s) (hn : i + w.text.length ≤ n) :
    ∃ s' pending, shuntFrom n i s w.text = .ok s' ∧ Shunted s s' p w.expression pending ∧
      (pending = [] ↔ w.enclosed = true ∨ w.expression.operators = 0) := by
  induction w generalizing p s i with
  | literal digits =>
    exact ⟨_, [], shuntFrom_literal h.1 h.2 hnum, ⟨rfl, rfl, by simp, rfl⟩,
      by simp [Writing.expression, Expression.operators]⟩
  | spaceBefore w ih =>
    rw [Writing.text, List.length_cons] at hn
    obtain ⟨s', pending, hrun, hs', hpending⟩ :=
      @ih (i + 1) { s with foundNum := false } p h rfl htop (by omega)
    refine ⟨s', pending, ?_, ⟨hs'.stack, hs'.outputQ, hs'.binding, hs'.4⟩, hpending⟩
    rw [Writing.text, shuntFrom_cons, shuntStep_space]
    exact hrun
  | spaceAfter w ih =>
    rw [Writing.text, List.length_append] at hn
    obtain ⟨s', pending, hrun, hs', hpending⟩ := ih h hnum htop (show i + w.text.length ≤ n by omega)
    refine ⟨{ s' with foundNum := false }, pending, ?_,
      ⟨hs'.stack, hs'.outputQ, hs'.binding, hs'.4⟩, hpending⟩
    rw [Writing.text, shuntFrom_append, hrun]
    rfl
  | parens w ih =>
    rw [Writing.text, List.cons_append, List.length_cons, List.length_append] at hn
    obtain ⟨s', pending, hrun, hs', -⟩ := @ih (i + 1) { s with
      operatorStack := .paren :: s.operatorStack
      foundNum := false
      foundOperationOperator := true } 0 h rfl (by simp [TopBelow]) (by omega)
    refine ⟨{
        outputQ := (pending.map .op).reverse ++ s'.outputQ
        operatorStack := s.operatorStack
        foundNum := false
        foundOperationOperator := false }, [], ?_, ⟨rfl, hs'.outputQ, by simp, rfl⟩,
      by simp [Writing.enclosed]⟩
    rw [Writing.text, List.cons_append, shuntFrom_cons, shuntStep_open]
    simp only [bind, Except.bind]
    rw [shuntFrom_append, hrun]
    simp only [bind, Except.bind, shuntFrom_cons, shuntStep_close]
    rw [@shuntClose_pending { s' with foundNum := false } pending s.operatorStack hs'.stack]
    rfl
  | binary o l r ihl ihr =>
    obtain ⟨hp, hl, hr⟩ := h
    have hlpos := Writing.text_pos hl
    have hrpos := Writing.text_pos hr
    rw [Writing.text, List.length_append, List.length_cons] at hn
    have htopl : TopBelow (precedence o) s := fun top ht o' he ↦ (htop top ht o' he).trans_le hp
    obtain ⟨s₁, pending₁, hrun₁, hs₁, -⟩ :=
      ihl hl hnum htopl (show i + l.text.length ≤ n by omega)
    have hinside : (i + l.text.length = 0 || i + l.text.length = n - 1 : Bool) = false := by
      simp only [Bool.or_eq_false_iff, decide_eq_false_iff_not]
      omega
    have hstep : shuntStep n s₁ (UInt8.ofNat (opChar o).toNat, i + l.text.length) = .ok {
        outputQ := (pending₁.map .op).reverse ++ s₁.outputQ
        operatorStack := .op o :: s.operatorStack
        foundNum := false
        foundOperationOperator := true } := by
      rw [shuntStep_operator, hinside]
      exact @shuntOperator_pending { s₁ with foundNum := false } o pending₁ s.operatorStack
        hs₁.stack hs₁.foundOperationOperator hs₁.binding htopl
    obtain ⟨s₂, pending₂, hrun₂, hs₂, -⟩ := @ihr (i + l.text.length + 1) {
        outputQ := (pending₁.map .op).reverse ++ s₁.outputQ
        operatorStack := .op o :: s.operatorStack
        foundNum := false
        foundOperationOperator := true } (precedence o + 1) hr rfl (by simp [TopBelow]) (by omega)
    refine ⟨s₂, pending₂ ++ [o], ?_, ⟨?_, ?_, ?_, hs₂.foundOperationOperator⟩, ?_⟩
    · rw [Writing.text, shuntFrom_append, hrun₁]
      simp only [bind, Except.bind, shuntFrom_cons, hstep]
      exact hrun₂
    · rw [hs₂.stack, List.map_append, List.append_assoc]
      rfl
    · have hq := hs₂.outputQ
      rw [hs₁.outputQ] at hq
      simp [Writing.expression, Expression.postorder, hq]
    · intro o' ho'
      rcases List.mem_append.mp ho' with ho' | ho'
      · have := hs₂.binding o' ho'
        omega
      · rw [List.mem_singleton.mp ho']
        exact hp
    · simp [Writing.enclosed, Writing.expression, Expression.operators]

end Operands

section Results

variable {w : Writing}

theorem shunt_eq (h : w.Proper 0) :
    shunt (encode w.text) =
      if w.enclosed = true ∨ w.expression.operators = 0 then
        .error (invalidArgument "Invalid expression syntax: no operators found")
      else .ok w.expression.postorder := by
  obtain ⟨s, pending, hrun, hs, hpending⟩ :=
    @shunt_writing w.text.length 0 .init w 0 h rfl (by simp [TopBelow, ShuntState.init]) (by omega)
  have hstack : s.operatorStack = pending.map .op ++ [] := hs.stack
  have hlength : (encode w.text).length = w.text.length := by simp [encode]
  have hloop : (encode w.text).zipIdx.foldlM (shuntStep w.text.length) ShuntState.init = .ok s :=
    hrun
  have hempty : s.operatorStack = [] ↔ w.enclosed = true ∨ w.expression.operators = 0 := by
    rw [← hpending, hstack, List.append_nil, List.map_eq_nil_iff]
  rw [shunt, hlength, hloop]
  simp only [bind, Except.bind, hempty]
  split_ifs with hnone
  · rfl
  · have hq := hs.outputQ
    rw [ShuntState.init, List.append_nil] at hq
    rw [hstack, popOperators_append pending _ _ (fun _ _ ↦ rfl) (by simp), hq]
    simp only [pure, Except.pure, List.reverse_reverse]

/-- Whenever `shunt` returns on a writing of an expression, the queue is the
postorder of the expression. -/
theorem shunt_postorder {q : List Token} (h : w.Proper 0) (hq : shunt (encode w.text) = .ok q) :
    q = w.expression.postorder := by
  rw [shunt_eq h] at hq
  split_ifs at hq
  exact (Except.ok.inj hq).symm

/-- `shunt` accepts a writing of an expression with an operator if and only if
no parentheses enclose it as a whole. -/
theorem shunt_accepts_iff (h : w.Proper 0) (hop : 0 < w.expression.operators) :
    (∃ q, shunt (encode w.text) = .ok q) ↔ w.enclosed = false := by
  rw [shunt_eq h]
  constructor
  · rintro ⟨q, hq⟩
    split_ifs at hq with hnone
    exact Bool.eq_false_iff.mpr fun he ↦ hnone (.inl he)
  · intro he
    refine ⟨_, if_neg ?_⟩
    rintro (he' | hzero)
    · exact Bool.false_ne_true (he.symm.trans he')
    · omega

end Results

section Sample

/-- `( 10 - 2)*((3) + 4*5 )` -/
def sampleWriting : Writing :=
  .binary .mul
    (.parens (.spaceBefore (.spaceAfter
      (.binary .sub (.literal ['1', '0']) (.spaceBefore (.literal ['2']))))))
    (.parens (.spaceAfter (.binary .add (.spaceAfter (.parens (.literal ['3'])))
      (.spaceBefore (.binary .mul (.literal ['4']) (.literal ['5']))))))

theorem shunt_postorder_sample : ∃ q, shunt (encode sampleWriting.text) = .ok q ∧
    q = [.num ['1', '0'], .num ['2'], .op .sub, .num ['3'], .num ['4'], .num ['5'], .op .mul,
      .op .add, .op .mul] := by
  have hok : (shunt (encode sampleWriting.text)).isOk = true := by decide +kernel
  cases hq : shunt (encode sampleWriting.text) with
  | ok q => exact ⟨q, rfl, shunt_postorder (by decide) hq⟩
  | error e =>
    rw [hq] at hok
    exact absurd hok Bool.false_ne_true

theorem shunt_accepts_sample : ∃ q, shunt (encode sampleWriting.text) = .ok q :=
  (shunt_accepts_iff (by decide) (by decide)).mpr rfl

def enclosedSum : Writing := .parens (.binary .add (.literal ['0']) (.literal ['1']))

theorem enclosedSum_refused : ¬ ∀ w : Writing, w.Proper 0 → 0 < w.expression.operators →
    ∃ q, shunt (encode w.text) = .ok q := by
  intro h
  obtain ⟨q, hq⟩ := h enclosedSum (by decide) (by decide)
  have herror : (shunt (encode enclosedSum.text)).isOk = false := by decide +kernel
  rw [hq] at herror
  exact Bool.noConfusion herror

end Sample

end FheBlockchain.Computer.Shunting
