import DualForm.Engine

/-!
# Recipes

A recipe describes how to make a tree, a value, a function, a member or a method. Following it anew
makes everything in it anew: lambda parameters, records and functions get identities of their own.
Finished things stand in a recipe as they are.

* `Binder` — a parameter of a lambda recipe.
* `ExprRecipe`, `ValueRecipe`, `FuncRecipe`, `MemberRecipe`, `MethodRecipe` — the recipes.
* `Builder α` — how a factory builder gets to a recipe `α`: it may fail, log, fail at first, or choose
  by the value of a captured argument.
* `DecompilerRecipe` — how a tree is reconstructed from a function.
-/

namespace DualForm

/-- A parameter of a lambda recipe. -/
inductive Binder where
  /-- A new parameter, known to the body under a key. -/
  | fresh (key name : String) (ty : Ty)
  /-- The parameter an enclosing lambda recipe made under a key. -/
  | scoped (key : String)
  /-- A finished parameter. -/
  | known (p : Param)

mutual

/-- How to make a tree. -/
inductive ExprRecipe where
  | done (t : Expr)
  /-- Read of the parameter an enclosing lambda recipe made under a key. -/
  | scoped (key : String)
  /-- Literal typed from its value. -/
  | constant (v : ValueRecipe)
  | literal (v : ValueRecipe) (ty : Ty)
  | staticMember (m : MemberRecipe)
  | member (m : MemberRecipe) (target : ExprRecipe)
  | staticCall (m : MethodRecipe) (args : List ExprRecipe)
  | call (m : MethodRecipe) (args : List ExprRecipe) (target : ExprRecipe)
  | operation (op : BinaryOp) (lhs rhs : ExprRecipe)
  | operationVia (op : BinaryOp) (lhs rhs : ExprRecipe) (via : MethodRecipe)
  | complement (operand : ExprRecipe)
  | negation (operand : ExprRecipe)
  | unaryVia (op : UnaryOp) (operand : ExprRecipe) (via : MethodRecipe)
  | convert (operand : ExprRecipe) (ty : Ty)
  | convertVia (via : MethodRecipe) (operand : ExprRecipe) (ty : Ty)
  | lambda (binders : List Binder) (body : ExprRecipe)
  | invoke (callee : ExprRecipe) (args : List ExprRecipe)
  | conditional (test ifTrue ifFalse : ExprRecipe)
  /-- Evaluation of a dual through its evaluator. -/
  | invoked (d : Dual) (arg : ExprRecipe)
  /-- Evaluation of a dual through its method. -/
  | called (d : Dual) (arg : ExprRecipe)
  /-- The tree form of a dual. -/
  | treeOf (d : Dual)
  | bind (k : Factory) (args : List ExprRecipe)
  | bindFirst (k : Factory) (arg : ExprRecipe)
  | bothHold (lhs rhs : ExprRecipe)
  | eitherHolds (lhs rhs : ExprRecipe)
  | notHolds (operand : ExprRecipe)
  /-- Closure read of a captured argument. -/
  | captured (index : Nat)
  /-- Literal of the current value of a captured argument. -/
  | capturedValue (index : Nat)

/-- How to make a value. -/
inductive ValueRecipe where
  | done (v : Value)
  | list (items : List ValueRecipe)
  | func (f : FuncRecipe)
  /-- A new record; its fields are made first. -/
  | record (declaring : DeclaringType) (fields : List (String × ValueRecipe))

/-- How to make a function. -/
inductive FuncRecipe where
  | done (f : Func)
  /-- A lambda, compiled. -/
  | compiled (e : ExprRecipe)
  /-- A routine of the host that holds some values. -/
  | routine (name : String) (arity : Nat) (held : List ValueRecipe)
  /-- A function that fails on its first calls. -/
  | flaky (fails : Nat) (f : FuncRecipe)
  /-- A function that logs its calls. -/
  | trace (label : String) (f : FuncRecipe)

/-- How to make a member. -/
inductive MemberRecipe where
  | done (m : Member Getter)
  | staticField (declaring : DeclaringType) (name : String) (ty : Ty) (v : ValueRecipe)
  | property (declaring : DeclaringType) (name : String) (ty : Ty) (f : FuncRecipe)
  | staticProperty (declaring : DeclaringType) (name : String) (ty : Ty) (f : FuncRecipe)

/-- How to make a method. -/
inductive MethodRecipe where
  | done (m : Method Invoker)
  | onArguments (declaring : DeclaringType) (name : String) (params : List Ty) (result : Ty)
      (f : FuncRecipe)
  | onTarget (declaring : DeclaringType) (name : String) (params : List Ty) (result : Ty)
      (f : FuncRecipe)

end

/-- How a builder gets to a recipe. -/
inductive Builder (α : Type) where
  | recipe (r : α)
  | fail (message : String)
  | trace (label : String) (next : Builder α)
  /-- Logs a captured argument. -/
  | shown (index : Nat) (next : Builder α)
  /-- Fails on its first runs, counted under an identity. -/
  | flaky (id fails : Nat) (next : Builder α)
  /-- Compares the current value of a captured argument. -/
  | choose (index : Nat) (v : Value) (same other : Builder α)

/-- How a tree is reconstructed from a function. -/
inductive DecompilerRecipe where
  | tree (e : ExprRecipe)
  | fail (message : String)
  /-- A constant lambda with the result of one call. -/
  | probe (v : Value)
  | trace (label : String) (next : DecompilerRecipe)

end DualForm
