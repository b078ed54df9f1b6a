import DualForm.Tree.Basic

/-!
# Substitution of a parameter

* `Tree.substitute` — every read of one parameter replaced by a tree. Reads are matched by identity,
  never by name, and the replacement is inserted as it is. When the replacement is itself a
  parameter, lambdas that declare the target declare the replacement instead.
* `Tree.redeclare` — that change of a parameter list.
-/

namespace DualForm

namespace Tree

variable {ν γ ι : Type}

/-- Parameter list of a lambda after `p` has been replaced. -/
def redeclare (p : Param) (replacement : Tree ν γ ι) (params : List Param) : List Param :=
  match replacement with
  | .param renamed => params.map fun q => if q = p then renamed else q
  | _ => params

mutual

/-- The tree with every read of `p` replaced. -/
def substitute (p : Param) (replacement : Tree ν γ ι) : Tree ν γ ι → Tree ν γ ι
  | .literal value ty => .literal value ty
  | .param q => if q = p then replacement else .param q
  | .staticMember m => .staticMember m
  | .member target m => .member (substitute p replacement target) m
  | .staticCall m args => .staticCall m (substituteAll p replacement args)
  | .call target m args =>
      .call (substitute p replacement target) m (substituteAll p replacement args)
  | .binary op lhs rhs via =>
      .binary op (substitute p replacement lhs) (substitute p replacement rhs) via
  | .unary op operand via ty => .unary op (substitute p replacement operand) via ty
  | .lambda params body =>
      .lambda (redeclare p replacement params) (substitute p replacement body)
  | .invoke callee args =>
      .invoke (substitute p replacement callee) (substituteAll p replacement args)
  | .conditional test ifTrue ifFalse =>
      .conditional (substitute p replacement test) (substitute p replacement ifTrue)
        (substitute p replacement ifFalse)

/-- Substitution in each tree of a list. -/
def substituteAll (p : Param) (replacement : Tree ν γ ι) : List (Tree ν γ ι) → List (Tree ν γ ι)
  | [] => []
  | t :: ts => substitute p replacement t :: substituteAll p replacement ts

end

end Tree

end DualForm
