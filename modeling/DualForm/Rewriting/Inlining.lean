import DualForm.Rewriting.Rule

/-!
# Inlining duals in trees

For duals of one kind, the first rule that applies:

1. An evaluation, by the evaluator read and applied or by the evaluation method, whose receiver folds
   to a dual or is a lambda with one parameter: the body with the parameter replaced by the argument,
   visited again.
2. A bare read of the evaluator on such a receiver: the receiver, rewritten.
3. A literal or a member read of the dual's type that folds: the lambda of the dual, visited again.
4. A conversion through a method of the dual's type: the operand, rewritten.

Receivers that do not fold are left to the rewriting of the node.

* `receiverLambda`, `isReceiver` — what a receiver denotes, and whether it denotes anything.
* `inliningRule` — the pass.
-/

namespace DualForm

/-- Whether a member reads the function of a dual of this kind. -/
def isEvaluator (kind : DualKind) (m : Member Getter) : Bool :=
  m.declaredBy (.dual kind) && m.name = kind.evaluateName

/-- Whether a method evaluates a dual of this kind. -/
def isEvaluateMethod (kind : DualKind) (m : Method Invoker) : Bool :=
  m.declaredBy (.dual kind) && m.name = kind.evaluateName

/-- The lambda a receiver denotes, if known. -/
def receiverLambda (E : Engine) (kind : DualKind) : Expr → Act (Option Lam)
  | .lambda [p] body => return some ⟨[p], body⟩
  | receiver => foldDual E kind receiver

/-- Whether a receiver denotes something known. -/
def isReceiver (E : Engine) : Expr → Act Bool
  | .lambda params _ => return params.length = 1
  | receiver => return (← tryEvaluate E receiver).isSome

/-- The evaluation of a receiver on an argument, inlined if the receiver is known. -/
def inlineCall (E : Engine) (kind : DualKind) (receiver arg : Expr) : Act (Option Expr) := do
  match ← receiverLambda E kind receiver with
  | none => return none
  | some l => return some (← E.rewrite (.inlining kind) (← Act.lift (l.applied arg)))

/-- The lambda of a tree of the dual's type, if it folds, and the node itself otherwise. -/
def spliceDual (E : Engine) (kind : DualKind) (n : Visited) : Act Expr := do
  match ← foldDual E kind n.given with
  | some l => E.rewrite (.inlining kind) l.tree
  | none => n.rebuild

/-- Replaces duals of one kind by their trees. -/
def inliningRule (E : Engine) (kind : DualKind) : Rule
  | n@(.invoke (.member receiver m, _) [(arg, _)]) =>
      if isEvaluator kind m then do
        match ← inlineCall E kind receiver arg with
        | some inlined => return inlined
        | none => n.rebuild
      else n.rebuild
  | n@(.call (receiver, _) m [(arg, _)]) =>
      if isEvaluateMethod kind m then do
        match ← inlineCall E kind receiver arg with
        | some inlined => return inlined
        | none => n.rebuild
      else n.rebuild
  | n@(.member (receiver, rewriteReceiver) m) => do
      if isEvaluator kind m then
        if ← isReceiver E receiver then return ← rewriteReceiver
      if m.ty.declares (.dual kind) then spliceDual E kind n else n.rebuild
  | n@(.staticMember m) =>
      if m.ty.declares (.dual kind) then spliceDual E kind n else n.rebuild
  | n@(.literal _ ty) =>
      if ty.declares (.dual kind) then spliceDual E kind n else n.rebuild
  | n@(.unary .convert (_, rewriteOperand) (some m) _) =>
      if m.declaredBy (.dual kind) then rewriteOperand else n.rebuild
  | n => n.rebuild

end DualForm
