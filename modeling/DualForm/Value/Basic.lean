import DualForm.Tree.Basic
import DualForm.Value.Datum

/-!
# Values, functions, duals and factories

The values a tree computes with include functions, duals and factories, and these hold trees and
values in turn, so the types are declared together.

* `Func` — a function value: identity, arity and `Code`. Closures keep the lambda and the scope they
  were made in; host functions keep the name of a routine and the values it holds.
* `Getter`, `Invoker` — how a member is read and a method is run.
* `Dual` — something that exists both as a tree and as a function; its `Origin` says how it was made
  and thereby how each form is obtained when first asked for.
* `Compiled` — a function with an optional tree, or a decompiler to reconstruct one.
* `Argument` — an argument of a factory: a value, or an accessor read later.
* `Factory` — builders with the arguments bound so far and one or two parameters still open.
* `Value`, `Expr`, `Lam`, `Scope` — the resulting values, trees, lambdas and parameter bindings.
-/

namespace DualForm

/-- Name under which the host knows a builder. -/
abbrev BuilderId := Nat

/-- Name under which the host knows a decompiler. -/
abbrev DecompilerId := Nat

/-- Host code a factory is made from. -/
inductive Builders where
  /-- Builds the tree; the function is compiled from it. -/
  | tree (build : BuilderId)
  /-- Builds the function and the tree separately. -/
  | both (func build : BuilderId)
  /-- Builds the function; the tree is reconstructed from it. -/
  | function (func : BuilderId) (decompiler : DecompilerId)
deriving DecidableEq, Repr, Inhabited

mutual

/-- Function value. -/
structure Func where
  id : Nat
  arity : Nat
  code : Code

/-- What a function does when called. -/
inductive Code where
  /-- Evaluates the body with the arguments bound over the scope of the lambda. -/
  | closure (lambda : Lambda (Datum Func Dual Factory) Getter Invoker)
      (scope : List (Param × Datum Func Dual Factory))
  /-- Runs a routine of the host, which also sees the values held. -/
  | host (routine : String) (held : List (Datum Func Dual Factory))
  /-- Calls `outer` on the result of `inner`. -/
  | chain (inner outer : Func)
  /-- Both predicates hold; the right one is asked only if the left one holds. -/
  | conjunction (lhs rhs : Func)
  /-- Either predicate holds; the right one is asked only if the left one does not hold. -/
  | disjunction (lhs rhs : Func)
  /-- The predicate does not hold. -/
  | negation (predicate : Func)
  /-- Reads the accessors among the arguments, builds the function and calls it, on every call. -/
  | rebuilt (builders : Builders) (bindings : List (FormalParam × Argument))

/-- How a member is read. -/
inductive Getter where
  /-- The field of the target record that has the name of the member. -/
  | field
  /-- A function of the target. -/
  | property (f : Func)
  /-- A fixed value. -/
  | fixed (v : Datum Func Dual Factory)
  /-- A function without arguments. -/
  | computed (f : Func)
  /-- The function form of the target, a dual of this kind. -/
  | evaluator (kind : DualKind)

/-- How a method is run. -/
inductive Invoker where
  /-- A function of the arguments. -/
  | function (f : Func)
  /-- A function of the target and the arguments. -/
  | method (f : Func)
  /-- The function form of the target, a dual of this kind, on one argument. -/
  | evaluate (kind : DualKind)
  /-- The function form of the argument, a dual of this kind. -/
  | toFunction (kind : DualKind)
  | conjunction
  | disjunction
  | negation
  /-- Binds parameters of the target, a factory. -/
  | bind

/-- Something that exists both as a tree and as a function. -/
structure Dual where
  id : Nat
  kind : DualKind
  source : Ty
  result : Ty
  origin : Origin

/-- How a dual was made. -/
inductive Origin where
  /-- From a tree: it is rewritten for the tree form and compiled as it is for the function form. -/
  | lambda (raw : Lambda (Datum Func Dual Factory) Getter Invoker)
  /-- From a function with its tree. -/
  | compiled (c : Compiled)
  /-- From a factory all of whose parameters are bound. -/
  | bound (builders : Builders) (bindings : List (FormalParam × Argument))
  /-- From host builders of either form; the tree is rewritten if so said. -/
  | hosted (build func : BuilderId) (rewritten : Bool)
  /-- `outer` after `inner`. -/
  | composed (outer inner : Dual)
  /-- `outer` after a function. -/
  | precomposed (outer : Dual) (inner : Compiled)
  /-- A function after `inner`. -/
  | postcomposed (inner : Dual) (outer : Compiled)
  | conjunction (lhs rhs : Dual)
  | disjunction (lhs rhs : Dual)
  | negation (predicate : Dual)

/-- A function with an optional tree form. -/
structure Compiled where
  func : Func
  expression : Option (Lambda (Datum Func Dual Factory) Getter Invoker)
  decompiler : Option DecompilerId

/-- An argument of a factory. -/
inductive Argument where
  | value (v : Datum Func Dual Factory)
  /-- An accessor without parameters, read when the value is needed. -/
  | deferred (accessor : Compiled)

/-- A maker of duals with one or two parameters still open. -/
structure Factory where
  id : Nat
  kind : DualKind
  builders : Builders
  /-- Arguments bound so far, in declaration order. -/
  bound : List (FormalParam × Argument)
  /-- The first open parameter. -/
  next : FormalParam
  /-- The open parameter after it, if there are two. -/
  second : Option FormalParam
  source : Ty
  result : Ty

end

/-- Dynamic value. -/
abbrev Value := Datum Func Dual Factory

/-- Expression tree over values. -/
abbrev Expr := Tree Value Getter Invoker

/-- Lambda over values. -/
abbrev Lam := Lambda Value Getter Invoker

/-- One node of an expression tree. -/
abbrev ExprNode := Node Value Getter Invoker

/-- Bound parameters, innermost first. -/
abbrev Scope := List (Param × Value)

instance : Inhabited Func := ⟨⟨0, 0, .host "" []⟩⟩
instance : Inhabited Dual := ⟨⟨0, .projection, .any, .any, .hosted 0 0 false⟩⟩
instance : Inhabited Getter := ⟨.field⟩
instance : Inhabited Invoker := ⟨.bind⟩

namespace Scope

/-- Value bound to a parameter by the innermost binding. -/
def lookup? (scope : Scope) (p : Param) : Option Value :=
  (scope.find? (·.1 = p)).map (·.2)

/-- Binds one parameter over a scope. -/
def bind (scope : Scope) (p : Param) (v : Value) : Scope := (p, v) :: scope

/-- Binds parameters to arguments position by position. -/
def bindAll (scope : Scope) (params : List Param) (args : List Value) : Scope :=
  (params.zip args).reverse ++ scope

end Scope

/-! ## Types of values -/

namespace Dual

/-- Type of a dual. -/
def signature (d : Dual) : Ty := Ty.ofDual d.kind d.source d.result

end Dual

namespace Factory

/-- Open parameters, in declaration order. -/
def openParams (k : Factory) : List FormalParam := k.next :: k.second.toList

/-- Number of open parameters. -/
def arity (k : Factory) : Nat := k.openParams.length

/-- Type of a factory. -/
def signature (k : Factory) : Ty :=
  Ty.ofFactory k.kind (k.openParams.map FormalParam.ty) k.source k.result

end Factory

namespace Value

/-- Type inferred from a value. -/
def ty : Value → Ty
  | .null => .any
  | .bool _ => .bool
  | .int _ => .int
  | .float _ => .float
  | .str _ => .str
  | .list [] => .list .any
  | .list (item :: _) => .list (ty item)
  | .record _ declaring _ => declaring.ty
  | .func f => .func (List.replicate f.arity .any) .any
  | .dual d => d.signature
  | .factory k => k.signature

mutual

/-- Equality of values. Integers and floats compare as floats, a float that is not a number differs
from itself, and records, functions, duals and factories are equal only to themselves. -/
def same : Value → Value → Bool
  | .null, .null => true
  | .bool a, .bool b => a = b
  | .int a, .int b => a = b
  | .float a, .float b => a == b
  | .int a, .float b => a.toFloat == b
  | .float a, .int b => b.toFloat == a
  | .str a, .str b => a = b
  | .list as, .list bs => sameAll as bs
  | .record a _ _, .record b _ _ => a = b
  | .func f, .func g => f.id = g.id
  | .dual d, .dual e => d.id = e.id
  | .factory k, .factory l => k.id = l.id
  | _, _ => false

/-- Equality of lists of values. -/
def sameAll : List Value → List Value → Bool
  | [], [] => true
  | a :: as, b :: bs => same a b && sameAll as bs
  | _, _ => false

end

instance : BEq Value := ⟨same⟩

/-- The dual a value holds, if it is of this kind. -/
def dual? (kind : DualKind) : Value → Option Dual
  | .dual d => if d.kind = kind then some d else none
  | _ => none

/-- The factory a value holds. -/
def factory? : Value → Option Factory
  | .factory k => some k
  | _ => none

end Value

namespace Tree

/-- Literal typed from its value. -/
def constant (v : Value) : Expr := .literal v (Value.ty v)

end Tree

end DualForm
