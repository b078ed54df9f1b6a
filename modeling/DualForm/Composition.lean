import DualForm.Tree.Printing
import DualForm.Tree.Substitution

/-!
# Composition of lambdas

Every function here takes lambdas with one parameter and makes a new one; anything else is an error.

* `Lambda.singleParam`, `Lambda.expectSingle` — the check for one parameter.
* `Lambda.applied` — the body with the parameter replaced by an argument.
* `Lambda.conjunction`, `Lambda.disjunction`, `Lambda.negation` — predicates over the parameter of the
  left lambda.
* `Lambda.composed` — `f` after `g`; `Lambda.continued` — `g` after `f`.
-/

namespace DualForm

namespace Lambda

/-- The only parameter of a lambda. -/
def singleParam (l : Lam) : Except Error Param :=
  match l.params with
  | [p] => .ok p
  | ps => .error (.invalidArgument "expression"
      ("expected a single-parameter lambda, got " ++ toString ps.length ++ " parameter(s) in `" ++
        l.text ++ "`"))

/-- The only parameter of a lambda handed over as an argument. -/
def expectSingle (l : Lam) (argument : String) : Except Error Param :=
  match l.params with
  | [p] => .ok p
  | ps => .error (.invalidArgument argument
      ("expected a single-parameter lambda, got `" ++ l.text ++ "` with " ++ toString ps.length ++
        " parameter(s)"))

/-- Body of a lambda with its parameter replaced. -/
def applied (l : Lam) (arg : Expr) : Except Error Expr := do
  let p ← l.singleParam
  return Tree.substitute p arg l.body

/-- Both bodies under an operator, sharing the parameter of the left lambda. -/
def combined (op : BinaryOp) (lhs rhs : Lam) : Except Error Lam := do
  let p ← lhs.singleParam
  let q ← rhs.singleParam
  return ⟨[p], .operation op lhs.body (Tree.substitute q (.param p) rhs.body)⟩

/-- `x => lhs(x) && rhs(x)`. -/
def conjunction (lhs rhs : Lam) : Except Error Lam := combined .andAlso lhs rhs

/-- `x => lhs(x) || rhs(x)`. -/
def disjunction (lhs rhs : Lam) : Except Error Lam := combined .orElse lhs rhs

/-- `x => !predicate(x)`. -/
def negation (predicate : Lam) : Except Error Lam := do
  let p ← predicate.singleParam
  return ⟨[p], predicate.body.complement⟩

/-- `p => f(g(p))`. -/
def composed (f g : Lam) : Except Error Lam := do
  let x ← f.singleParam
  let p ← g.singleParam
  return ⟨[p], Tree.substitute x g.body f.body⟩

/-- `s => g(f(s))`. -/
def continued (f g : Lam) : Except Error Lam := do
  let s ← f.singleParam
  let x ← g.singleParam
  return ⟨[s], Tree.substitute x f.body g.body⟩

end Lambda

end DualForm
