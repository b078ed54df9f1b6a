import DualForm.Member
import DualForm.Operator
import DualForm.Param

/-!
# Expression trees

* `Tree ν γ ι` — expressions with literal values in `ν`, getters in `γ` and invokers in `ι`.
* `Lambda` — a parameter list and a body; `Lambda.tree` is its tree, `Tree.lambda?` the way back.
* `Tree.ty` — the static type of the value a tree produces.
* `Node` — one node of a tree with something else in place of its direct subtrees; `Tree.node` takes
  the top node off a tree and `Node.tree` puts it back.
* `Tree.fold` — recursion over a tree, one node at a time, with the subtrees still at hand.
-/

namespace DualForm

/-- Expression tree. -/
inductive Tree (ν γ ι : Type) where
  | literal (value : ν) (ty : Ty)
  | param (p : Param)
  /-- Read of a static field or property. -/
  | staticMember (m : Member γ)
  /-- Read of a field or property of the target. -/
  | member (target : Tree ν γ ι) (m : Member γ)
  | staticCall (m : Method ι) (args : List (Tree ν γ ι))
  | call (target : Tree ν γ ι) (m : Method ι) (args : List (Tree ν γ ι))
  /-- Binary operation, through a method if one is given. -/
  | binary (op : BinaryOp) (lhs rhs : Tree ν γ ι) (via : Option (Method ι))
  /-- Unary operation or conversion, through a method if one is given. -/
  | unary (op : UnaryOp) (operand : Tree ν γ ι) (via : Option (Method ι)) (ty : Ty)
  | lambda (params : List Param) (body : Tree ν γ ι)
  /-- Application of a function value. -/
  | invoke (callee : Tree ν γ ι) (args : List (Tree ν γ ι))
  | conditional (test ifTrue ifFalse : Tree ν γ ι)
deriving Inhabited

/-- Lambda with an ordered parameter list. -/
structure Lambda (ν γ ι : Type) where
  params : List Param
  body : Tree ν γ ι
deriving Inhabited

/-- One node, with an `α` in place of each direct subtree. -/
inductive Node (ν γ ι α : Type) where
  | literal (value : ν) (ty : Ty)
  | param (p : Param)
  | staticMember (m : Member γ)
  | member (target : α) (m : Member γ)
  | staticCall (m : Method ι) (args : List α)
  | call (target : α) (m : Method ι) (args : List α)
  | binary (op : BinaryOp) (lhs rhs : α) (via : Option (Method ι))
  | unary (op : UnaryOp) (operand : α) (via : Option (Method ι)) (ty : Ty)
  | lambda (params : List Param) (body : α)
  | invoke (callee : α) (args : List α)
  | conditional (test ifTrue ifFalse : α)
deriving Inhabited

/-- The kinds of node. -/
inductive NodeKind where
  | literal | param | member | call | binary | unary | lambda | invoke | conditional
deriving DecidableEq, Repr, Inhabited

namespace NodeKind

/-- Name of a kind of node. -/
def name : NodeKind → String
  | .literal => "Literal"
  | .param => "Param"
  | .member => "Member"
  | .call => "Call"
  | .binary => "Binary"
  | .unary => "Unary"
  | .lambda => "Lambda"
  | .invoke => "Invoke"
  | .conditional => "Conditional"

/-- The kind with this name. -/
def ofName? (s : String) : Option NodeKind :=
  [literal, param, member, call, binary, unary, lambda, invoke, conditional].find? (·.name = s)

end NodeKind

namespace Node

variable {ν γ ι α β : Type}

/-- The kind of a node. -/
def kind : Node ν γ ι α → NodeKind
  | .literal .. => .literal
  | .param _ => .param
  | .staticMember _ | .member .. => .member
  | .staticCall .. | .call .. => .call
  | .binary .. => .binary
  | .unary .. => .unary
  | .lambda .. => .lambda
  | .invoke .. => .invoke
  | .conditional .. => .conditional

/-- The direct subtrees in evaluation order. -/
def children : Node ν γ ι α → List α
  | .literal .. | .param _ | .staticMember _ => []
  | .member target _ => [target]
  | .staticCall _ args => args
  | .call target _ args => target :: args
  | .binary _ lhs rhs _ => [lhs, rhs]
  | .unary _ operand _ _ => [operand]
  | .lambda _ body => [body]
  | .invoke callee args => callee :: args
  | .conditional test ifTrue ifFalse => [test, ifTrue, ifFalse]

/-- Replaces each direct subtree. -/
def map (f : α → β) : Node ν γ ι α → Node ν γ ι β
  | .literal value ty => .literal value ty
  | .param p => .param p
  | .staticMember m => .staticMember m
  | .member target m => .member (f target) m
  | .staticCall m args => .staticCall m (args.map f)
  | .call target m args => .call (f target) m (args.map f)
  | .binary op lhs rhs via => .binary op (f lhs) (f rhs) via
  | .unary op operand via ty => .unary op (f operand) via ty
  | .lambda params body => .lambda params (f body)
  | .invoke callee args => .invoke (f callee) (args.map f)
  | .conditional test ifTrue ifFalse => .conditional (f test) (f ifTrue) (f ifFalse)

/-- Replaces each direct subtree by the result of an action, run in evaluation order. -/
def traverse {m : Type → Type} [Monad m] (f : α → m β) : Node ν γ ι α → m (Node ν γ ι β)
  | .literal value ty => pure (.literal value ty)
  | .param p => pure (.param p)
  | .staticMember m => pure (.staticMember m)
  | .member target m => return .member (← f target) m
  | .staticCall m args => return .staticCall m (← args.mapM f)
  | .call target m args => do
      let target ← f target
      return .call target m (← args.mapM f)
  | .binary op lhs rhs via => do
      let lhs ← f lhs
      return .binary op lhs (← f rhs) via
  | .unary op operand via ty => return .unary op (← f operand) via ty
  | .lambda params body => return .lambda params (← f body)
  | .invoke callee args => do
      let callee ← f callee
      return .invoke callee (← args.mapM f)
  | .conditional test ifTrue ifFalse => do
      let test ← f test
      let ifTrue ← f ifTrue
      return .conditional test ifTrue (← f ifFalse)

/-- Puts a node back on its subtrees. -/
def tree : Node ν γ ι (Tree ν γ ι) → Tree ν γ ι
  | .literal value ty => .literal value ty
  | .param p => .param p
  | .staticMember m => .staticMember m
  | .member target m => .member target m
  | .staticCall m args => .staticCall m args
  | .call target m args => .call target m args
  | .binary op lhs rhs via => .binary op lhs rhs via
  | .unary op operand via ty => .unary op operand via ty
  | .lambda params body => .lambda params body
  | .invoke callee args => .invoke callee args
  | .conditional test ifTrue ifFalse => .conditional test ifTrue ifFalse

end Node

namespace Tree

variable {ν γ ι α : Type}

/-- Takes the top node off a tree. -/
def node : Tree ν γ ι → Node ν γ ι (Tree ν γ ι)
  | .literal value ty => .literal value ty
  | .param p => .param p
  | .staticMember m => .staticMember m
  | .member target m => .member target m
  | .staticCall m args => .staticCall m args
  | .call target m args => .call target m args
  | .binary op lhs rhs via => .binary op lhs rhs via
  | .unary op operand via ty => .unary op operand via ty
  | .lambda params body => .lambda params body
  | .invoke callee args => .invoke callee args
  | .conditional test ifTrue ifFalse => .conditional test ifTrue ifFalse

@[simp] theorem tree_node (t : Tree ν γ ι) : t.node.tree = t := by cases t <;> rfl

@[simp] theorem node_tree (n : Node ν γ ι (Tree ν γ ι)) : n.tree.node = n := by cases n <;> rfl

/-- The kind of the top node. -/
def kind (t : Tree ν γ ι) : NodeKind := t.node.kind

/-- The direct subtrees in evaluation order. -/
def children (t : Tree ν γ ι) : List (Tree ν γ ι) := t.node.children

mutual

/-- Computes `f` at each node from the subtrees and the results there. -/
def fold (f : Node ν γ ι (Tree ν γ ι × α) → α) : Tree ν γ ι → α
  | .literal value ty => f (.literal value ty)
  | .param p => f (.param p)
  | .staticMember m => f (.staticMember m)
  | .member target m => f (.member (target, fold f target) m)
  | .staticCall m args => f (.staticCall m (foldAll f args))
  | .call target m args => f (.call (target, fold f target) m (foldAll f args))
  | .binary op lhs rhs via => f (.binary op (lhs, fold f lhs) (rhs, fold f rhs) via)
  | .unary op operand via ty => f (.unary op (operand, fold f operand) via ty)
  | .lambda params body => f (.lambda params (body, fold f body))
  | .invoke callee args => f (.invoke (callee, fold f callee) (foldAll f args))
  | .conditional test ifTrue ifFalse =>
      f (.conditional (test, fold f test) (ifTrue, fold f ifTrue) (ifFalse, fold f ifFalse))

/-- The trees of a list, each with its result. -/
def foldAll (f : Node ν γ ι (Tree ν γ ι × α) → α) :
    List (Tree ν γ ι) → List (Tree ν γ ι × α)
  | [] => []
  | t :: ts => (t, fold f t) :: foldAll f ts

end

/-! ## Typing -/

/-- Type of an arithmetic operation: a mix of integers and floats is a float, otherwise the left
operand decides. -/
def arithmeticTy : Ty → Ty → Ty
  | .int, .float | .float, .int => .float
  | lhs, _ => lhs

/-- Static type of the value a tree produces. -/
def ty : Tree ν γ ι → Ty
  | .literal _ ty => ty
  | .param p => p.ty
  | .staticMember m | .member _ m => m.ty
  | .staticCall m _ | .call _ m _ => m.result
  | .binary op lhs rhs via =>
      match via with
      | some method => method.result
      | none => if op.isPredicate then .bool else arithmeticTy lhs.ty rhs.ty
  | .unary _ _ _ ty => ty
  | .lambda params body => .func (params.map Param.ty) body.ty
  | .invoke callee _ => callee.ty.result?.getD .any
  | .conditional _ ifTrue _ => ifTrue.ty

/-! ## Builders -/

/-- Built-in binary operation. -/
def operation (op : BinaryOp) (lhs rhs : Tree ν γ ι) : Tree ν γ ι := .binary op lhs rhs none

/-- Built-in negation of a boolean. -/
def complement (operand : Tree ν γ ι) : Tree ν γ ι := .unary .not operand none .bool

/-- Built-in negation of a number. -/
def negation (operand : Tree ν γ ι) : Tree ν γ ι := .unary .negate operand none operand.ty

/-- Unary operation through a method. -/
def unaryVia (op : UnaryOp) (operand : Tree ν γ ι) (method : Method ι) : Tree ν γ ι :=
  .unary op operand (some method) method.result

/-! ## Views -/

/-- The lambda at the top of a tree. -/
def lambda? : Tree ν γ ι → Option (Lambda ν γ ι)
  | .lambda params body => some ⟨params, body⟩
  | _ => none

/-- The value and type of a literal. -/
def literal? : Tree ν γ ι → Option (ν × Ty)
  | .literal value ty => some (value, ty)
  | _ => none

end Tree

namespace Lambda

variable {ν γ ι : Type}

/-- The lambda as a tree. -/
def tree (l : Lambda ν γ ι) : Tree ν γ ι := .lambda l.params l.body

/-- Number of parameters. -/
def arity (l : Lambda ν γ ι) : Nat := l.params.length

/-- Function type of a lambda. -/
def ty (l : Lambda ν γ ι) : Ty := l.tree.ty

end Lambda

end DualForm
