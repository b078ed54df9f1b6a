import DualForm.Factory.Realization
import DualForm.Rewriting.Pipeline

/-!
# The two forms of a dual

* `Dual.initialTree`, `Dual.initialFunction` — what a form is before it has been published. Supplied and
  built trees are rewritten; compositions are made of the tree forms of their parts, and of the
  lambdas put before or after a dual as they are. The function form never depends on the rewriting.
* `Dual.forceTree`, `Dual.forceFunction` — a form, published when it is first asked for.
-/

namespace DualForm

namespace Dual

/-- The tree form, computed. -/
def initialTree (host : Host) (E : Engine) (d : Dual) : Act Lam :=
  match d.origin with
  | .lambda raw => rewriteLambda E raw
  | .compiled c => do rewriteLambda E (← c.tree host E)
  | .bound builders bindings => do rewriteLambda E (← Bindings.tree host E builders bindings)
  | .hosted build _ rewritten => do
      let l ← host.buildTree E build []
      if rewritten then rewriteLambda E l else return l
  | .composed outer inner => do
      let f ← E.tree outer
      Act.lift (Lambda.composed f (← E.tree inner))
  | .precomposed outer inner => do
      let f ← E.tree outer
      Act.lift (Lambda.composed f (← inner.tree host E))
  | .postcomposed inner outer => do
      let f ← E.tree inner
      Act.lift (Lambda.continued f (← outer.tree host E))
  | .conjunction lhs rhs => do
      let l ← E.tree lhs
      Act.lift (Lambda.conjunction l (← E.tree rhs))
  | .disjunction lhs rhs => do
      let l ← E.tree lhs
      Act.lift (Lambda.disjunction l (← E.tree rhs))
  | .negation predicate => do Act.lift (Lambda.negation (← E.tree predicate))

/-- The function form, computed. -/
def initialFunction (host : Host) (E : Engine) (d : Dual) : Act Func :=
  match d.origin with
  | .lambda raw => compile raw
  | .compiled c => pure c.func
  | .bound builders bindings => Bindings.function host E builders bindings
  | .hosted _ func _ => host.buildFunction E func []
  | .composed outer inner => do
      let f ← E.function inner
      Act.newFunc 1 (.chain f (← E.function outer))
  | .precomposed outer inner => do Act.newFunc 1 (.chain inner.func (← E.function outer))
  | .postcomposed inner outer => do Act.newFunc 1 (.chain (← E.function inner) outer.func)
  | .conjunction lhs rhs => do
      let l ← E.function lhs
      Act.newFunc 1 (.conjunction l (← E.function rhs))
  | .disjunction lhs rhs => do
      let l ← E.function lhs
      Act.newFunc 1 (.disjunction l (← E.function rhs))
  | .negation predicate => do Act.newFunc 1 (.negation (← E.function predicate))

/-- The tree form. -/
def forceTree (host : Host) (E : Engine) (d : Dual) : Act Lam :=
  Act.publishOnce (.tree d) (d.initialTree host E)

/-- The function form. -/
def forceFunction (host : Host) (E : Engine) (d : Dual) : Act Func :=
  Act.publishOnce (.function d) (d.initialFunction host E)

end Dual

end DualForm
