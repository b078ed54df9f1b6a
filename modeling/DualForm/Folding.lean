import DualForm.Evaluation

/-!
# Values known before evaluation

A tree folds when it is a literal, or a chain of field and property reads that starts at a literal or
at a static member. Calls, operators, lambdas and applications never fold, so folding runs no host
code but getters.

* `tryEvaluate` — the value of a tree that folds; `none` for all others, for which no getter runs.
* `evaluateNow`, `evaluateNotNull` — the same, with an error where there is no value, or only null.
* `isFoldable` — whether a tree folds; a failing getter counts as no.
* `foldDual` — the tree form of the dual a tree folds to.
-/

namespace DualForm

/-- The value of a tree that folds. -/
def tryEvaluate (E : Engine) : Expr → Act (Option Value)
  | .literal v _ => return some v
  | .staticMember m => return some (← m.read E none)
  | .member target m => do
      match ← tryEvaluate E target with
      | some v => return some (← m.read E (some v))
      | none => return none
  | _ => return none

/-- The value of a tree that has to fold. -/
def evaluateNow (E : Engine) (t : Expr) : Act Value := do
  match ← tryEvaluate E t with
  | some v => return v
  | none => Act.fail (.unfoldable t.text)

/-- The value of a tree that has to fold to something other than null. -/
def evaluateNotNull (E : Engine) (t : Expr) : Act Value := do
  let v ← evaluateNow E t
  if v.isNull then Act.fail (.nullValue t.text) else return v

/-- Whether a tree folds. -/
def isFoldable (E : Engine) (t : Expr) : Act Bool := do
  match ← Act.attempt (tryEvaluate E t) with
  | .ok (some _) => return true
  | _ => return false

/-- The tree form of the dual of this kind that a tree folds to. -/
def foldDual (E : Engine) (kind : DualKind) (t : Expr) : Act (Option Lam) := do
  match ← tryEvaluate E t with
  | none => return none
  | some v =>
      if v.isNull then Act.fail (.nullValue t.text)
      else return some (← E.tree (← Act.lift (Dual.expect kind v)))

end DualForm
