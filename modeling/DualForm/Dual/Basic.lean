import DualForm.Compiled
import DualForm.Dual.Reference
import DualForm.Value.Operation

/-!
# Making duals

* `Dual.ofLambda`, `Dual.ofCompiled` — a dual from a tree, or from a function with an optional tree.
* `Dual.conjunction`, `Dual.disjunction`, `Dual.negation` — combinations of specifications over one
  source.
* `Dual.precompose`, `Dual.postcompose`, `Dual.compose` and the checked ways to them — a lambda, a
  function or another dual before or after a dual.
* `Dual.evaluate`, `Dual.isSatisfiedBy` — running the function form.
* `Dual.expect` — the dual of a given kind that a value holds.

Nothing is computed when a dual is made: both forms are produced when they are first asked for.
-/

namespace DualForm

namespace Dual

/-- A dual with an identity of its own. -/
def create (kind : DualKind) (source result : Ty) (origin : Origin) : Act Dual :=
  return ⟨← Act.freshId, kind, source, result, origin⟩

/-- From a lambda with one parameter; that of a specification must be boolean. -/
def ofLambda (kind : DualKind) (l : Lam) : Act Dual := do
  let p ← Act.lift (l.expectSingle "expression")
  let result := l.body.ty
  if kind = .specification ∧ ¬ Ty.bool.accepts result then
    Act.fail (.typeMismatch Ty.bool.text result.text)
  else create kind p.ty result (.lambda l)

/-- From a function; without a tree the decompiler is required. -/
def ofCompiled (kind : DualKind) (source result : Ty) (c : Compiled) : Act Dual := do
  Act.lift (c.check 1)
  create kind source result (.compiled c)

/-- Result type of a dual made from another one. -/
def derivedResult (kind : DualKind) (result : Ty) : Ty :=
  match kind with
  | .projection => result
  | .specification => .bool

/-! ## Combinations of specifications -/

/-- Two specifications can be combined if they share their source. -/
def checkSameSource (lhs rhs : Dual) : Except Error Unit :=
  if lhs.source = rhs.source then .ok ()
  else .error (.typeMismatch lhs.signature.text rhs.signature.text)

/-- Both predicates hold. -/
def conjunction (lhs rhs : Dual) : Act Dual := do
  Act.lift (checkSameSource lhs rhs)
  create .specification lhs.source .bool (.conjunction lhs rhs)

/-- Either predicate holds. -/
def disjunction (lhs rhs : Dual) : Act Dual := do
  Act.lift (checkSameSource lhs rhs)
  create .specification lhs.source .bool (.disjunction lhs rhs)

/-- The predicate does not hold. -/
def negation (predicate : Dual) : Act Dual :=
  create .specification predicate.source .bool (.negation predicate)

/-! ## Composition -/

/-- A dual after a function. -/
def precompose (outer : Dual) (source : Ty) (inner : Compiled) : Act Dual :=
  create outer.kind source (derivedResult outer.kind outer.result) (.precomposed outer inner)

/-- A dual after a lambda. -/
def applyTo (outer : Dual) (inner : Lam) : Act Dual := do
  let p ← Act.lift (inner.expectSingle "expression")
  outer.precompose p.ty (← Compiled.ofLambda inner)

/-- A dual after a function of one argument. -/
def applyToFunc (outer : Dual) (source : Ty) (inner : Compiled) : Act Dual := do
  Act.lift (inner.check 1)
  outer.precompose source inner

/-- A dual after a projection. A specification must have the result of the projection as its
source. -/
def compose (outer inner : Dual) : Act Dual :=
  if outer.kind = .specification ∧ inner.result ≠ outer.source then
    Act.fail (.typeMismatch outer.source.text inner.result.text)
  else
    create outer.kind inner.source (derivedResult outer.kind outer.result) (.composed outer inner)

/-- A function after a projection. -/
def postcompose (inner : Dual) (result : Ty) (outer : Compiled) : Act Dual :=
  create .projection inner.source result (.postcomposed inner outer)

/-- A lambda after a projection. -/
def continueWith (inner : Dual) (outer : Lam) : Act Dual := do
  let _ ← Act.lift (outer.expectSingle "expression")
  inner.postcompose outer.body.ty (← Compiled.ofLambda outer)

/-- A function of one argument after a projection. -/
def continueWithFunc (inner : Dual) (result : Ty) (outer : Compiled) : Act Dual := do
  Act.lift (outer.check 1)
  inner.postcompose result outer

/-! ## Use -/

/-- Runs the function form. -/
def evaluate (E : Engine) (d : Dual) (input : Value) : Act Value := do
  E.call (← E.function d) [input]

/-- Runs the function form of a specification. -/
def isSatisfiedBy (E : Engine) (d : Dual) (input : Value) : Act Bool := do
  Act.lift (Value.expectBool DualKind.specification.evaluateName (← d.evaluate E input))

/-- The dual of this kind that a value holds. -/
def expect (kind : DualKind) (v : Value) : Except Error Dual :=
  match Value.dual? kind v with
  | some d => .ok d
  | none => .error (.typeMismatch kind.name (Value.ty v).text)

end Dual

end DualForm
