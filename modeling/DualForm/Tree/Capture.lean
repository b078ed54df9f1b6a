import DualForm.Tree.Basic

/-!
# Reads of captured arguments

A closure reads a captured local as a field of a synthesized container that the tree holds as a
literal.

* `Tree.isCaptureOf` — whether a member read is such a read of a given formal parameter.
* `Tree.bindArgument` — every such read replaced by a tree. Fields of ordinary types that share the
  name are left alone, and the inserted tree is not visited again.
* `Tree.bindArguments` — two formal parameters, the second after the first.
-/

namespace DualForm

namespace Tree

variable {ν γ ι : Type}

/-- Whether the tree is a literal. -/
def isLiteral : Tree ν γ ι → Bool
  | .literal .. => true
  | _ => false

/-- Whether reading member `m` of `target` is a closure read of the formal parameter. -/
def isCaptureOf (formal : FormalParam) (target : Tree ν γ ι) (m : Member γ) : Bool :=
  m.name = formal.name && m.ty = formal.ty && target.isLiteral && m.declaring.synthesized

mutual

/-- The tree with every closure read of the formal parameter replaced. -/
def bindArgument (formal : FormalParam) (arg : Tree ν γ ι) : Tree ν γ ι → Tree ν γ ι
  | .literal value ty => .literal value ty
  | .param q => .param q
  | .staticMember m => .staticMember m
  | .member target m =>
      if isCaptureOf formal target m then arg else .member (bindArgument formal arg target) m
  | .staticCall m args => .staticCall m (bindArgumentAll formal arg args)
  | .call target m args => .call (bindArgument formal arg target) m (bindArgumentAll formal arg args)
  | .binary op lhs rhs via =>
      .binary op (bindArgument formal arg lhs) (bindArgument formal arg rhs) via
  | .unary op operand via ty => .unary op (bindArgument formal arg operand) via ty
  | .lambda params body => .lambda params (bindArgument formal arg body)
  | .invoke callee args => .invoke (bindArgument formal arg callee) (bindArgumentAll formal arg args)
  | .conditional test ifTrue ifFalse =>
      .conditional (bindArgument formal arg test) (bindArgument formal arg ifTrue)
        (bindArgument formal arg ifFalse)

/-- The replacement in each tree of a list. -/
def bindArgumentAll (formal : FormalParam) (arg : Tree ν γ ι) :
    List (Tree ν γ ι) → List (Tree ν γ ι)
  | [] => []
  | t :: ts => bindArgument formal arg t :: bindArgumentAll formal arg ts

end

/-- Replaces the closure reads of two formal parameters, one after the other. -/
def bindArguments (formal₁ : FormalParam) (arg₁ : Tree ν γ ι) (formal₂ : FormalParam)
    (arg₂ : Tree ν γ ι) (t : Tree ν γ ι) : Tree ν γ ι :=
  bindArgument formal₂ arg₂ (bindArgument formal₁ arg₁ t)

end Tree

end DualForm
