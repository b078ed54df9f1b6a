import DualForm.Compiled
import DualForm.Dual.Basic

/-!
# Factories

* `Argument.ofRuntime` — a function without parameters, passed where no function is expected, is an
  accessor; anything else is a value.
* `Factory.create` — a factory with one or two open parameters.
* `Factory.bindArguments` — binds leading parameters: all of them make a dual, fewer a smaller
  factory, and any other number is an error.
* `Factory.bindMethod`, `Factory.bindFirstMethod` and the references `Factory.literal`,
  `Factory.bindExpr`, `Factory.bindFirstExpr` — factories in trees.

Binding runs no host code.
-/

namespace DualForm

namespace Argument

/-- Classifies an argument by its value and the type of its parameter. -/
def ofRuntime (v : Value) (ty : Ty) : Argument :=
  match v with
  | .func f => if f.arity = 0 ∧ ¬ ty.isFunc then .deferred (.ofFunc f) else .value v
  | v => .value v

/-- Whether the argument is read through an accessor. -/
def isDeferred : Argument → Bool
  | .value _ => false
  | .deferred _ => true

end Argument

/-- Name of the method that binds every open parameter. -/
def Factory.bindName : String := "bind"

/-- Name of the method that binds the first of two open parameters. -/
def Factory.bindFirstName : String := "bind_first"

namespace Factory

/-- A factory with an identity of its own. -/
def create (kind : DualKind) (builders : Builders) (next : FormalParam)
    (second : Option FormalParam) (source result : Ty) : Act Factory :=
  return ⟨← Act.freshId, kind, builders, [], next, second, source, result⟩

/-- The dual of a factory whose parameters are all bound. -/
def realize (k : Factory) (bindings : List (FormalParam × Argument)) : Act Value :=
  return .dual (← Dual.create k.kind k.source k.result (.bound k.builders bindings))

/-- Binds leading parameters. -/
def bindArguments (k : Factory) (args : List Argument) : Act Value :=
  match k.second, args with
  | none, [a] => k.realize (k.bound ++ [(k.next, a)])
  | some second, [a] =>
      return .factory { k with
        id := ← Act.freshId, bound := k.bound ++ [(k.next, a)], next := second, second := none }
  | some second, [a, b] => k.realize (k.bound ++ [(k.next, a), (second, b)])
  | _, args => Act.fail (.arityMismatch k.arity args.length)

/-- Method that binds every open parameter. -/
def bindMethod (k : Factory) : Method Invoker :=
  { declaring := .ofTy k.signature, name := bindName, params := k.openParams.map FormalParam.ty
    result := Ty.ofDual k.kind k.source k.result, isStatic := false, invoker := .bind }

/-- Method that binds the first open parameter. -/
def bindFirstMethod (k : Factory) : Method Invoker :=
  { declaring := .ofTy k.signature, name := bindFirstName, params := [k.next.ty]
    result := Ty.ofFactory k.kind (k.second.toList.map FormalParam.ty) k.source k.result
    isStatic := false, invoker := .bind }

/-- Literal that holds a factory. -/
def literal (k : Factory) : Expr := .literal (.factory k) k.signature

/-- Call that binds every open parameter. -/
def bindExpr (k : Factory) (args : List Expr) : Expr := .call k.literal k.bindMethod args

/-- Call that binds the first open parameter. -/
def bindFirstExpr (k : Factory) (arg : Expr) : Expr := .call k.literal k.bindFirstMethod [arg]

end Factory

end DualForm
