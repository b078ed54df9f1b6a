import DualForm.Composition
import DualForm.Rewriting.Pipeline
import DualForm.Tree.Capture

/-!
# Passes

* `NodeRule` — rules that change nodes from the leaves up, without state.
* `Pass` — everything that rewrites trees: the passes over duals, substitution, binding of captured
  arguments, node rules, and sequences of passes, with or without a final check that no reference to
  a dual is left.
* `Pass.run`, `Pass.runLambda` — a pass over a tree, and over a lambda, which must stay one.
* `Pass.inspect` — inspection text of the passes that have one.
-/

namespace DualForm

/-- Rules that change one node whose subtrees are already changed. -/
inductive NodeRule where
  /-- Doubles integer literals. -/
  | doubleIntegers
  /-- Swaps the operands of binary operations. -/
  | swapOperands
  /-- Puts the body of a lambda in its place. -/
  | dropLambdas
deriving DecidableEq, Repr, Inhabited

/-- What a rule makes of a node. -/
def NodeRule.apply : NodeRule → ExprNode Expr → Expr
  | .doubleIntegers, .literal (.int n) _ => Tree.constant (.int (n * 2))
  | .swapOperands, .binary op lhs rhs via => .binary op rhs lhs via
  | .dropLambdas, .lambda _ body => body
  | _, n => n.tree

/-- Applies a rule to every node, from the leaves up. -/
def NodeRule.run (rule : NodeRule) (t : Expr) : Expr :=
  t.fold fun n => rule.apply (n.map Prod.snd)

/-- A way to rewrite trees. -/
inductive Pass where
  | dual (pass : DualPass)
  | substitute (p : Param) (replacement : Expr)
  | bindArgument (formal : FormalParam) (replacement : Expr)
  | node (rule : NodeRule)
  /-- Each pass over the output of the one before. -/
  | sequence (passes : List Pass)
  /-- The same, with an optional check for references to duals at the end. -/
  | pipeline (passes : List Pass) (verify : Bool)

namespace Pass

/-- The default pipeline. -/
def default (verify : Bool) : Pass := .pipeline (DualPass.all.map .dual) verify

mutual

/-- Runs a pass over a tree. -/
def run (E : Engine) : Pass → Expr → Act Expr
  | .dual pass, t => pass.run E t
  | .substitute p replacement, t => return Tree.substitute p replacement t
  | .bindArgument formal replacement, t => return Tree.bindArgument formal replacement t
  | .node rule, t => return rule.run t
  | .sequence passes, t => runAll E passes t
  | .pipeline passes verify, t => do
      let t ← runAll E passes t
      if verify && t.referencesDuals then Act.fail (.residualReference t.text) else return t

/-- Runs passes one after the other. -/
def runAll (E : Engine) : List Pass → Expr → Act Expr
  | [], t => return t
  | pass :: rest, t => do runAll E rest (← run E pass t)

end

/-- Runs a pass over a lambda. -/
def runLambda (E : Engine) (pass : Pass) (l : Lam) : Act Lam := do
  Act.lift (← pass.run E l.tree).expectLambda

/-- Inspection text of a sequence. -/
def inspectSequence (passes : List Pass) : String :=
  "CompositeRewriter(" ++ toString passes.length ++ " passes)"

/-- Inspection text, for passes that have one. -/
def inspect? : Pass → Option String
  | .dual .factories => some "FactoryResolver"
  | .dual .combinators => some "CombinatorResolver"
  | .dual (.inlining kind) => some ("UnitInliner<" ++ kind.name ++ ">")
  | .sequence passes => some (inspectSequence passes)
  | .pipeline passes verify => some
      ("UnitRewriter \x7b pipeline: " ++ inspectSequence passes ++
        ", options: RewriteOptions \x7b verify: " ++ Value.boolText verify ++ " \x7d \x7d")
  | _ => none

end Pass

end DualForm
