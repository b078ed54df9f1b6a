import DualForm.Folding

/-!
# Rules of rewriting passes

A pass is a rule for one node, given the subtrees of the node together with the actions that would
rewrite them. A rule that does not apply rebuilds the node from its rewritten subtrees.

* `Rule` — such a rule; `Rule.run` — the pass over a whole tree.
* `rebuild` — rewrites the subtrees in evaluation order and puts the node back.
* `given` — the node as it was.
-/

namespace DualForm

/-- A node whose subtrees come with the actions that rewrite them. -/
abbrev Visited := ExprNode (Expr × Act Expr)

/-- What a pass does at one node. -/
abbrev Rule := Visited → Act Expr

namespace Visited

/-- The node as it was. -/
def given (n : Visited) : Expr := (n.map Prod.fst).tree

/-- The node on its rewritten subtrees. -/
def rebuild (n : Visited) : Act Expr := return (← n.traverse Prod.snd).tree

end Visited

/-- Runs a rule over a tree, the root first. -/
def Rule.run (rule : Rule) (t : Expr) : Act Expr := t.fold rule

end DualForm
