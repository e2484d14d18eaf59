import FheBlockchain.Library.HoleTree
import Mathlib.Algebra.Ring.Defs
import Mathlib.Logic.Function.Basic

namespace FheBlockchain.Computer.Ast

inductive Op
  | add
  | sub
  | mul
deriving DecidableEq, Repr

/-- An entry of the output queue of `shunt`: an operator, or the digits of one
non-negative literal. -/
inductive Token
  | op (o : Op)
  | num (digits : List Char)
deriving DecidableEq, Repr

inductive Fault
  | invalidLiteral
  | literalOutOfRange
  | emptyStack
  | nullPointer
  | unboundedRecursion
deriving DecidableEq, Repr

/-- A node as `make_shared` allocates it. A pointer is the `node_id_` of the
node behind it, which `node_counter_` makes unique; `null` is `none`. -/
structure ASTNode where
  isLeaf : Bool
  val : ℤ
  parent : Option ℕ
  leftChild : Option ℕ
  rightChild : Option ℕ
  op : Option Op
  depth : ℤ
  countsForDepth : Bool
deriving DecidableEq, Repr

def ASTNode.operator (countsForDepth : Bool) (o : Op) : ASTNode where
  isLeaf := false
  val := 0
  parent := none
  leftChild := none
  rightChild := none
  op := some o
  depth := if countsForDepth then 1 else 0
  countsForDepth := countsForDepth

def ASTNode.operand (val : ℤ) : ASTNode where
  isLeaf := true
  val := val
  parent := none
  leftChild := none
  rightChild := none
  op := none
  depth := 0
  countsForDepth := false

instance : Inhabited ASTNode := ⟨ASTNode.operand 0⟩

def ASTNode.isFull (n : ASTNode) : Bool := n.rightChild.isSome && n.leftChild.isSome

structure ASTree where
  nodeCounter : ℕ
  root : Option ℕ
  nodeStack : List ℕ
  nodes : ℕ → ASTNode

namespace ASTree

variable (t : ASTree)

def modify (i : ℕ) (f : ASTNode → ASTNode) : ASTree :=
  { t with nodes := Function.update t.nodes i (f (t.nodes i)) }

def getDepth : Option ℕ → ℤ
  | none => 0
  | some i => (t.nodes i).depth

def getBalance : Option ℕ → ℤ
  | none => 0
  | some i => t.getDepth (t.nodes i).leftChild - t.getDepth (t.nodes i).rightChild

def isMul : Option ℕ → Bool
  | none => false
  | some i => (t.nodes i).op = some .mul

def canRotateLeft (i : ℕ) : Bool := t.isMul (t.nodes i).rightChild && t.isMul (some i)

def canRotateRight (i : ℕ) : Bool := t.isMul (t.nodes i).leftChild && t.isMul (some i)

def notifyChildChange (i newChild oldChildId : ℕ) : ASTree :=
  if (t.nodes i).rightChild = some oldChildId then
    t.modify i fun n ↦ { n with rightChild := some newChild }
  else if (t.nodes i).leftChild = some oldChildId then
    t.modify i fun n ↦ { n with leftChild := some newChild }
  else t

def notifyParent (parent : Option ℕ) (newChild oldChildId : ℕ) : ASTree :=
  match parent with
  | none => t
  | some p => t.notifyChildChange p newChild oldChildId

def updateDepth (i : ℕ) : ASTree :=
  t.modify i fun n ↦
    { n with depth := 1 + max (t.getDepth n.leftChild) (t.getDepth n.rightChild) }

def rightRotate (node : ℕ) : Except Fault (ASTree × ℕ) :=
  match (t.nodes node).leftChild with
  | none => .error .nullPointer
  | some x =>
    let xr := (t.nodes x).rightChild
    let t := t.modify x fun n ↦ { n with rightChild := some node }
    let t := t.modify node fun n ↦ { n with leftChild := xr }
    let parent := (t.nodes node).parent
    let t := t.modify x fun n ↦ { n with parent := parent }
    let t := t.notifyParent parent x node
    let t := t.modify node fun n ↦ { n with parent := some x }
    .ok ((t.updateDepth node).updateDepth x, x)

def leftRotate (node : ℕ) : Except Fault (ASTree × ℕ) :=
  match (t.nodes node).rightChild with
  | none => .error .nullPointer
  | some x =>
    let xl := (t.nodes x).leftChild
    let t := t.modify x fun n ↦ { n with leftChild := some node }
    let t := t.modify node fun n ↦ { n with rightChild := xl }
    let parent := (t.nodes node).parent
    let t := t.modify x fun n ↦ { n with parent := parent }
    let t := t.notifyParent parent x node
    let t := t.modify node fun n ↦ { n with parent := some x }
    .ok ((t.updateDepth node).updateDepth x, x)

/-- The four rotation branches of `reorg_from`, in its order. -/
inductive Rotation
  | right
  | left
  | leftRight
  | rightLeft
deriving DecidableEq, Repr

def chooseRotation (node : ℕ) : Option Rotation :=
  let n := t.nodes node
  let balance := t.getBalance (some node)
  if t.canRotateRight node ∧ balance > 1 ∧ t.getBalance n.leftChild > 0 then some .right
  else if t.canRotateLeft node ∧ balance < -1 ∧ t.getBalance n.rightChild < 0 then some .left
  else if t.canRotateRight node ∧ balance > 1 ∧ t.getBalance n.leftChild < 0 ∧
      n.leftChild.any t.canRotateLeft then some .leftRight
  else if t.canRotateLeft node ∧ balance < -1 ∧ t.getBalance n.rightChild > 0 ∧
      n.rightChild.any t.canRotateRight then some .rightLeft
  else none

def rotate (node : ℕ) : Rotation → Except Fault (ASTree × ℕ)
  | .right => t.rightRotate node
  | .left => t.leftRotate node
  | .leftRight => do
    let child ← (t.nodes node).leftChild.elim (.error .nullPointer) .ok
    let t := { t with nodeStack := node :: t.nodeStack }
    let (t, x) ← t.leftRotate child
    let t := t.modify node fun n ↦ { n with leftChild := some x }
    t.rightRotate node
  | .rightLeft => do
    let child ← (t.nodes node).rightChild.elim (.error .nullPointer) .ok
    let t := { t with nodeStack := child :: t.nodeStack }
    let (t, x) ← t.rightRotate child
    let t := t.modify node fun n ↦ { n with rightChild := some x }
    t.leftRotate node

/-- The depth a visit of `reorg_from` gives a node before it looks at balances. -/
def refreshDepth (node : ℕ) : ASTree :=
  if (t.nodes node).countsForDepth then t.updateDepth node
  else t.modify node fun n ↦
    { n with depth := max (t.getDepth n.leftChild) (t.getDepth n.rightChild) }

def rotationAt (node : ℕ) : Option Rotation :=
  if (t.nodes node).countsForDepth then (t.refreshDepth node).chooseRotation node else none

/-- One visit of `reorg_from`: the new tree and the node `curr` that now stands
where the visited node stood. -/
def reorgVisit (node : ℕ) : Except Fault (ASTree × ℕ) :=
  match t.rotationAt node with
  | none => .ok (t.refreshDepth node, node)
  | some r => (t.refreshDepth node).rotate node r

/-- `reorg_from` recurses through `parent_`; the first argument bounds the
recursion and running out of it stands for a recursion that never returns. -/
def reorgFrom : ℕ → ASTree → ℕ → Except Fault (ASTree × ℕ)
  | 0, _, _ => .error .unboundedRecursion
  | fuel + 1, t, node => do
    let (t, curr) ← t.reorgVisit node
    match (t.nodes curr).parent with
    | some p => reorgFrom fuel t p
    | none => .ok (t, curr)

def insertChild (i child : ℕ) : ASTree × Bool :=
  match (t.nodes i).rightChild with
  | none => (t.modify i fun n ↦ { n with rightChild := some child }, false)
  | some _ => (t.modify i fun n ↦ { n with leftChild := some child }, true)

end ASTree

def decimal (digits : List Char) : ℕ :=
  digits.foldl (fun acc c ↦ 10 * acc + (c.toNat - '0'.toNat)) 0

def stoi (digits : List Char) : Except Fault ℤ :=
  if digits = [] ∨ ¬ digits.all Char.isDigit then .error .invalidLiteral
  else if decimal digits ≤ 2147483647 then .ok (decimal digits)
  else .error .literalOutOfRange

def dropFull (nodes : ℕ → ASTNode) : List ℕ → Except Fault (ℕ × List ℕ)
  | [] => .error .emptyStack
  | i :: stack => if (nodes i).isFull then dropFull nodes stack else .ok (i, i :: stack)

def makeNode : Token → Except Fault ASTNode
  | .op o => .ok (.operator (o = .mul) o)
  | .num digits => do return .operand (← stoi digits)

/-- Loop state of `build_tree`: `curr_node` outlives an iteration. -/
structure BuildState where
  tree : ASTree
  currNode : Option ℕ

def BuildState.init : BuildState where
  tree := { nodeCounter := 0, root := none, nodeStack := [], nodes := fun _ ↦ default }
  currNode := none

def insertionPoint (s : BuildState) : Except Fault (Option ℕ × List ℕ) :=
  match s.tree.nodeStack with
  | [] => .ok (s.currNode, [])
  | stack => do
    let (i, stack) ← dropFull s.tree.nodes stack
    return (some i, stack)

def allocate (t : ASTree) (stack : List ℕ) (node : ASTNode) : ASTree where
  nodeCounter := t.nodeCounter + 1
  root := t.root
  nodeStack := stack
  nodes := Function.update t.nodes t.nodeCounter node

def popStack (t : ASTree) : Except Fault ASTree :=
  match t.nodeStack with
  | [] => .error .emptyStack
  | _ :: stack => .ok { t with nodeStack := stack }

/-- Only a product sets off `reorg_from`, whose result becomes the root. -/
def rebalance (t : ASTree) (curr new : ℕ) : Except Fault ASTree :=
  if (t.nodes new).countsForDepth then do
    let (t, root) ← ASTree.reorgFrom t.nodeCounter t curr
    return { t with root := some root }
  else return t

/-- Hangs the node `new` below `curr`, rebalances, and drops the top of the
stack when both slots of `curr` were taken. -/
def attach (t : ASTree) (curr new : ℕ) : Except Fault ASTree := do
  let t := t.modify new fun n ↦ { n with parent := some curr }
  let (t, isFull) := t.insertChild curr new
  let t ← rebalance t curr new
  if isFull then popStack t else return t

def place (t : ASTree) (curr : Option ℕ) (new : ℕ) : Except Fault ASTree :=
  match t.root, curr with
  | none, _ => .ok { t with root := some new }
  | some _, none => .error .nullPointer
  | some _, some curr => attach t curr new

def pushOperator (t : ASTree) (new : ℕ) (isLeaf : Bool) : ASTree :=
  if isLeaf then t else { t with nodeStack := new :: t.nodeStack }

def buildStep (s : BuildState) (tok : Token) : Except Fault BuildState := do
  let (curr, stack) ← insertionPoint s
  let node ← makeNode tok
  let t ← place (allocate s.tree stack node) curr s.tree.nodeCounter
  return { tree := pushOperator t s.tree.nodeCounter node.isLeaf, currNode := curr }

/-- `build_tree` reads the postfix queue from its end. -/
def buildTree (input : List Token) : Except Fault ASTree := do
  let s ← input.reverse.foldlM buildStep BuildState.init
  return s.tree

end FheBlockchain.Computer.Ast
