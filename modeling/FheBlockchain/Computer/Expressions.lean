import FheBlockchain.Computer.Ast
import FheBlockchain.Core.Transactions

namespace FheBlockchain.Computer.Expressions

open Ast Core.Transactions

inductive Operator
  | paren
  | op (o : Op)
deriving DecidableEq, Repr

def precedence : Op → ℕ
  | .add | .sub => 2
  | .mul => 3

/-- Loop state of `shunt`. The queue and the stack have their newest entry
first. -/
structure ShuntState where
  outputQ : List Token
  operatorStack : List Operator
  foundNum : Bool
  foundOperationOperator : Bool
deriving DecidableEq, Repr

def ShuntState.init : ShuntState where
  outputQ := []
  operatorStack := []
  foundNum := false
  foundOperationOperator := false

def shuntDigit (s : ShuntState) (digit : Char) : ShuntState :=
  match s.foundNum, s.outputQ with
  | true, .num digits :: rest =>
    { s with outputQ := .num (digits ++ [digit]) :: rest, foundOperationOperator := false }
  | _, _ => { s with
      outputQ := .num [digit] :: s.outputQ, foundNum := true, foundOperationOperator := false }

def popOperators (p : Op → Bool) : List Token → List Operator → List Token × List Operator
  | outputQ, .op o :: stack =>
    if p o then popOperators p (.op o :: outputQ) stack else (outputQ, .op o :: stack)
  | outputQ, stack => (outputQ, stack)

def shuntClose (s : ShuntState) : Result ShuntState :=
  match popOperators (fun _ ↦ true) s.outputQ s.operatorStack with
  | (_, []) => .error (invalidArgument "Invalid expression syntax: mismatched ')'")
  | (outputQ, _ :: stack) => .ok { s with
      outputQ := outputQ, operatorStack := stack, foundOperationOperator := false }

def shuntOperator (o : Op) (outermost : Bool) (s : ShuntState) : Result ShuntState :=
  if s.foundOperationOperator then
    .error (invalidArgument "Invalid expression syntax: cannot have consecutive operations")
  else if outermost then
    .error (invalidArgument "Invalid expression syntax: cannot start or end with operator.")
  else
    let (outputQ, stack) := popOperators (fun top ↦ precedence o ≤ precedence top)
      s.outputQ s.operatorStack
    .ok { s with
      outputQ := outputQ, operatorStack := .op o :: stack, foundOperationOperator := true }

def shuntStep (n : ℕ) (s : ShuntState) (token : UInt8 × ℕ) : Result ShuntState :=
  let c := Char.ofNat token.1.toNat
  let outermost := token.2 = 0 || token.2 = n - 1
  if c.isDigit then .ok (shuntDigit s c)
  else
    let s := { s with foundNum := false }
    match c with
    | ' ' => .ok s
    | '(' => .ok { s with
        operatorStack := .paren :: s.operatorStack, foundOperationOperator := true }
    | ')' => shuntClose s
    | '+' => shuntOperator .add outermost s
    | '-' => shuntOperator .sub outermost s
    | '*' => shuntOperator .mul outermost s
    | _ => .error (invalidArgument "Invalid expression syntax.")

def shunt (expression : Bytes) : Result (List Token) := do
  let s ← expression.zipIdx.foldlM (shuntStep expression.length) ShuntState.init
  if s.operatorStack = [] then
    throw (invalidArgument "Invalid expression syntax: no operators found")
  match popOperators (fun _ ↦ true) s.outputQ s.operatorStack with
  | (outputQ, []) => return outputQ.reverse
  | _ => throw (invalidArgument "Invalid expression syntax: mismatched '('")

/-- What a failure of `build_tree` is for its callers. The recursion of
`reorg_from` along a cycle of parents ends with the stack. -/
def buildFailure : Ast.Fault → Failure
  | .invalidLiteral => invalidArgument "stoi"
  | .literalOutOfRange => outOfRange "stoi"
  | .emptyStack => .abort .indexOutOfRange
  | .nullPointer => .abort .nullPointer
  | .unboundedRecursion => .abort .stackOverflow

/-- `difficulty()` of a computer with the tree of an expression. -/
def treeDepth (expression : Bytes) : Result UInt32 := do
  let t ← (buildTree (← shunt expression)).mapError buildFailure
  match t.root with
  | none => .error (.abort .nullPointer)
  | some root => return UInt32.ofInt (t.nodes root).depth

example : treeDepth ("(0+1)*2*(3-4)".toUTF8.toList) = .ok 2 := by decide +kernel

end FheBlockchain.Computer.Expressions
