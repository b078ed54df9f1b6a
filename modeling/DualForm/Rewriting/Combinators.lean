import DualForm.Rewriting.Rule

/-!
# Combining specifications in trees

Operators over specifications that go through the methods of specifications become one lambda.

* `stripConversions` — conversions through methods of specifications do not matter here.
* `predicateOperand` — the lambda of an operand: that of the specification it folds to, or the operand
  rewritten until it is a lambda.
* `combinatorRule` — the pass. The combined lambda is visited again.
-/

namespace DualForm

/-- Whether an operator goes through the method of specifications with this name. -/
def isCombinator (via : Option (Method Invoker)) (name : String) : Bool :=
  via.any fun m => m.declaredBy (.dual .specification) && m.name = name

/-- Peels conversions through methods of specifications. -/
def stripConversions : Expr → Expr
  | .unary .convert operand (some m) ty =>
      if m.declaredBy (.dual .specification) then stripConversions operand
      else .unary .convert operand (some m) ty
  | t => t

/-- The lambda of an operand. -/
def predicateOperand (E : Engine) (operand : Expr × Act Expr) : Act Lam := do
  match ← foldDual E .specification (stripConversions operand.1) with
  | some l => return l
  | none =>
      match stripConversions (← operand.2) with
      | .lambda [p] body => return ⟨[p], body⟩
      | other =>
          match ← foldDual E .specification other with
          | some l => return l
          | none => Act.fail (other.unexpected "a specification or a predicate lambda")

/-- Combines specifications. -/
def combinatorRule (E : Engine) : Rule
  | n@(.binary op lhs rhs via) =>
      if (op = .and ∨ op = .andAlso) ∧ isCombinator via Specification.andName then do
        let l ← predicateOperand E lhs
        let r ← predicateOperand E rhs
        E.rewrite .combinators (← Act.lift (Lambda.conjunction l r)).tree
      else if (op = .or ∨ op = .orElse) ∧ isCombinator via Specification.orName then do
        let l ← predicateOperand E lhs
        let r ← predicateOperand E rhs
        E.rewrite .combinators (← Act.lift (Lambda.disjunction l r)).tree
      else n.rebuild
  | n@(.unary op operand via _) =>
      if op = .not ∧ isCombinator via Specification.notName then do
        let l ← predicateOperand E operand
        E.rewrite .combinators (← Act.lift (Lambda.negation l)).tree
      else n.rebuild
  | n => n.rebuild

end DualForm
