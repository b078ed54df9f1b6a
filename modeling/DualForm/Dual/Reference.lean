import DualForm.Error
import DualForm.Value.Basic

/-!
# References to duals in trees

* `Dual.evaluator`, `Dual.evaluateMethod`, `Dual.toFunctionMethod` — the member that reads the
  function of a dual, the method that runs it, and the conversion to it.
* `Dual.literal` and the builders `Dual.invoked`, `Dual.called`, `Dual.functionRead`,
  `Dual.converted` — the ways a tree refers to a dual.
* `Specification.conjunctionMethod` and the like — the operator methods of specifications.
* `Specification.conjunctionExpr` and the like — operators in trees that go through these methods.
-/

namespace DualForm

/-- Name of the member and the method that evaluate a dual. -/
def DualKind.evaluateName : DualKind → String
  | .projection => "evaluate"
  | .specification => "is_satisfied_by"

namespace Dual

/-- Name of the conversion to a function. -/
def toFunctionName : String := "to_function"

/-- Member that reads the function form. -/
def evaluator (kind : DualKind) (source result : Ty) : Member Getter :=
  { declaring := .ofTy (Ty.ofDual kind source result), name := kind.evaluateName
    ty := .func [source] result, kind := .property, isStatic := false, getter := .evaluator kind }

/-- Method that runs the function form on one argument. -/
def evaluateMethod (kind : DualKind) (source result : Ty) : Method Invoker :=
  { declaring := .ofTy (Ty.ofDual kind source result), name := kind.evaluateName
    params := [source], result, isStatic := false, invoker := .evaluate kind }

/-- Conversion to the function form. -/
def toFunctionMethod (kind : DualKind) (source result : Ty) : Method Invoker :=
  let ty := Ty.ofDual kind source result
  { declaring := .ofTy ty, name := toFunctionName, params := [ty], result := .func [source] result
    isStatic := true, invoker := .toFunction kind }

/-- Literal that holds a dual. -/
def literal (d : Dual) : Expr := .literal (.dual d) d.signature

/-- Read of the evaluator. -/
def functionRead (d : Dual) : Expr := .member d.literal (evaluator d.kind d.source d.result)

/-- The evaluator, read and applied. -/
def invoked (d : Dual) (arg : Expr) : Expr := .invoke d.functionRead [arg]

/-- Call of the evaluation method. -/
def called (d : Dual) (arg : Expr) : Expr :=
  .call d.literal (evaluateMethod d.kind d.source d.result) [arg]

/-- Conversion to the function type. -/
def converted (d : Dual) : Expr :=
  .unary .convert d.literal (some (toFunctionMethod d.kind d.source d.result))
    (.func [d.source] d.result)

end Dual

namespace Specification

/-- Names of the operator methods. -/
def andName : String := "and"
def orName : String := "or"
def notName : String := "not"

/-- Conjunction of two specifications. -/
def conjunctionMethod (source : Ty) : Method Invoker :=
  let ty := Ty.specification source
  { declaring := .ofTy ty, name := andName, params := [ty, ty], result := ty, isStatic := true
    invoker := .conjunction }

/-- Disjunction of two specifications. -/
def disjunctionMethod (source : Ty) : Method Invoker :=
  let ty := Ty.specification source
  { declaring := .ofTy ty, name := orName, params := [ty, ty], result := ty, isStatic := true
    invoker := .disjunction }

/-- Negation of a specification. -/
def negationMethod (source : Ty) : Method Invoker :=
  let ty := Ty.specification source
  { declaring := .ofTy ty, name := notName, params := [ty], result := ty, isStatic := true
    invoker := .negation }

/-- Source type of a tree that denotes a specification. -/
def sourceOf (t : Expr) : Except Error Ty :=
  match t.ty with
  | .specification source => .ok source
  | other => .error (.typeMismatch "Specification<_>" other.text)

/-- `lhs & rhs` through the method of specifications. -/
def conjunctionExpr (lhs rhs : Expr) : Except Error Expr := do
  return .binary .and lhs rhs (some (conjunctionMethod (← sourceOf lhs)))

/-- `lhs | rhs` through the method of specifications. -/
def disjunctionExpr (lhs rhs : Expr) : Except Error Expr := do
  return .binary .or lhs rhs (some (disjunctionMethod (← sourceOf lhs)))

/-- `!operand` through the method of specifications. -/
def negationExpr (operand : Expr) : Except Error Expr := do
  return operand.unaryVia .not (negationMethod (← sourceOf operand))

end Specification

end DualForm
