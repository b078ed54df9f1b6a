import DualForm.Rewriting.Combinators
import DualForm.Rewriting.Factories
import DualForm.Rewriting.Inlining
import DualForm.Tree.Traversal

/-!
# The default pipeline

* `DualPass.rule` — the rule of each pass.
* `DualPass.all` — the default order: factories are bound, specifications combined, then
  specifications and projections inlined. Each pass works on the output of the one before.
* `rewriteDefault`, `rewriteLambda` — the pipeline over a tree, and over a lambda.
* `Tree.referencesDuals` — whether some node still refers to a dual or a factory.
-/

namespace DualForm

/-- The rule of a pass. -/
def DualPass.rule (E : Engine) : DualPass → Rule
  | .factories => factoryRule E
  | .combinators => combinatorRule E
  | .inlining kind => inliningRule E kind

/-- Runs a pass over a tree. -/
def DualPass.run (E : Engine) (pass : DualPass) (t : Expr) : Act Expr := (pass.rule E).run t

/-- The passes of the default pipeline, in order. -/
def DualPass.all : List DualPass :=
  [.factories, .combinators, .inlining .specification, .inlining .projection]

/-- Runs the default pipeline over a tree. -/
def rewriteDefault (E : Engine) (t : Expr) : Act Expr :=
  DualPass.all.foldlM (fun t pass => E.rewrite pass t) t

/-- Runs the default pipeline over a lambda. -/
def rewriteLambda (E : Engine) (l : Lam) : Act Lam := do
  Act.lift (← rewriteDefault E l.tree).expectLambda

namespace Tree

/-- Whether the top node refers to a dual or a factory by one of its types. -/
def refersToDual : Expr → Bool
  | .literal _ ty => ty.wrapper?.isSome
  | .param p => p.ty.wrapper?.isSome
  | .staticMember m | .member _ m => m.ty.wrapper?.isSome || m.declaring.wrapper?.isSome
  | .staticCall m _ | .call _ m _ => m.result.wrapper?.isSome || m.declaring.wrapper?.isSome
  | .binary _ _ _ via | .unary _ _ via _ => via.any (·.declaring.wrapper?.isSome)
  | _ => false

/-- Whether some node refers to a dual or a factory. -/
def referencesDuals (t : Expr) : Bool := t.anyNode refersToDual

end Tree

end DualForm
