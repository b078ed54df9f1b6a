import DualForm.Machine
import DualForm.Proofs.Tree.Nodes

/-!
# Steps of evaluation and rewriting

One equation for parameters, for applications, for each form of binary operation, for the answers of the
machine, and for a pass at a node, so that later proofs cite what a step does and do not open the definitions.
-/

namespace DualForm

variable {E : Engine} {scope : Scope} {host : Host} {n : Nat}

/-! ## Evaluation -/

theorem evaluate_bound {p : Param} {v : Value} (h : scope.lookup? p = some v) :
    evaluate E scope (.param p) = pure v := by
  unfold evaluate
  rw [h]

theorem evaluate_unbound {p : Param} (h : scope.lookup? p = none) :
    evaluate E scope (.param p) = Act.fail (.unboundParameter p.name) := by
  unfold evaluate
  rw [h]

theorem evaluate_invoke (callee : Expr) (args : List Expr) :
    evaluate E scope (.invoke callee args) = (do
      let v ← evaluate E scope callee
      let args ← evaluateAll E scope args
      match v with
      | .func f => E.call f args
      | v => Act.fail (.typeMismatch "function" (Value.ty v).text)) := rfl

theorem evaluate_member (target : Expr) (m : Member Getter) :
    evaluate E scope (.member target m) = (do m.read E (some (← evaluate E scope target))) := rfl

theorem evaluate_via (op : BinaryOp) (lhs rhs : Expr) (m : Method Invoker) :
    evaluate E scope (.binary op lhs rhs (some m)) = (do
      let l ← evaluate E scope lhs
      let r ← evaluate E scope rhs
      m.invoke E none [l, r]) := by
  cases op <;> rfl

theorem evaluate_andAlso (lhs rhs : Expr) :
    evaluate E scope (.binary .andAlso lhs rhs none) = do
      if ← Act.lift (Value.expectBool "&&" (← evaluate E scope lhs)) then
        return .bool (← Act.lift (Value.expectBool "&&" (← evaluate E scope rhs)))
      else return .bool false := rfl

theorem evaluate_orElse (lhs rhs : Expr) :
    evaluate E scope (.binary .orElse lhs rhs none) = do
      if ← Act.lift (Value.expectBool "||" (← evaluate E scope lhs)) then return .bool true
      else return .bool (← Act.lift (Value.expectBool "||" (← evaluate E scope rhs))) := rfl

/-- Operators other than the short-circuiting ones evaluate both operands. -/
theorem evaluate_strict {op : BinaryOp} (hand : op ≠ .andAlso) (hor : op ≠ .orElse)
    (lhs rhs : Expr) :
    evaluate E scope (.binary op lhs rhs none) = (do
      let l ← evaluate E scope lhs
      let r ← evaluate E scope rhs
      Act.lift (Value.applyBinary op l r)) := by
  cases op <;> first | rfl | contradiction

theorem evaluateAll_eq_mapM (ts : List Expr) : evaluateAll E scope ts = ts.mapM (evaluate E scope) := by
  induction ts with
  | nil => rfl
  | cons t ts ih =>
      rw [List.mapM_cons, ← ih]
      rfl

/-! ## Methods -/

/-- The number of arguments of an invoker that takes a fixed number of them. -/
def Invoker.arity? : Invoker → Option Nat
  | .evaluate _ | .toFunction _ | .negation => some 1
  | .conjunction | .disjunction => some 2
  | .function _ | .method _ | .bind => none

/-- The method is run with this number of arguments: it has as many parameters, and its invoker takes as many. -/
def Method.Takes (m : Method Invoker) (count : Nat) : Prop :=
  count = m.params.length ∧ ∀ k, m.invoker.arity? = some k → count = k

/-- Any other number of arguments is refused. -/
theorem invoke_refused {m : Method Invoker} {target : Option Value} {args : List Value}
    (h : ¬ m.Takes args.length) :
    m.invoke E target args = Act.fail (.arityMismatch m.params.length args.length) := by
  unfold Method.invoke
  split
  · rfl
  · rename_i hcount
    have hfits : ¬ ∀ k, m.invoker.arity? = some k → args.length = k := fun hk => h ⟨Decidable.not_not.1 hcount, hk⟩
    split
    all_goals first | rfl | exact absurd (by simp_all [Invoker.arity?]) hfits

/-! ## The machine -/

theorem machine_tree (d : Dual) :
    (machine host (n + 1)).tree d = d.forceTree host (machine host n) := rfl

theorem machine_function (d : Dual) :
    (machine host (n + 1)).function d = d.forceFunction host (machine host n) := rfl

theorem machine_rewrite (pass : DualPass) (t : Expr) :
    (machine host (n + 1)).rewrite pass t = pass.run (machine host n) t := rfl

/-! ## Passes -/

/-- A pass at a node: the rule, with the subtrees and the pass over each of them. -/
theorem DualPass.run_eq (pass : DualPass) (t : Expr) :
    pass.run E t = pass.rule E (t.node.map fun u => (u, pass.run E u)) :=
  Tree.fold_eq (pass.rule E) t

section Inlining

/-- An evaluation, inlined if its receiver has a lambda and rebuilt otherwise. -/
def evaluationRule (E : Engine) (kind : DualKind) (receiver arg : Expr) (n : Visited) : Act Expr := do
  match ← inlineCall E kind receiver arg with
  | some inlined => return inlined
  | none => n.rebuild

variable (kind : DualKind) (receiver arg : Expr)
  (rewriteReceiver rewriteCallee rewriteArg : Act Expr)

theorem inliningRule_invoke (m : Member Getter) :
    inliningRule E kind (.invoke (.member receiver m, rewriteCallee) [(arg, rewriteArg)]) =
      if isEvaluator kind m then
        evaluationRule E kind receiver arg
          (.invoke (.member receiver m, rewriteCallee) [(arg, rewriteArg)])
      else Visited.rebuild (.invoke (.member receiver m, rewriteCallee) [(arg, rewriteArg)]) := rfl

theorem inliningRule_call (m : Method Invoker) :
    inliningRule E kind (.call (receiver, rewriteReceiver) m [(arg, rewriteArg)]) =
      if isEvaluateMethod kind m then
        evaluationRule E kind receiver arg (.call (receiver, rewriteReceiver) m [(arg, rewriteArg)])
      else Visited.rebuild (.call (receiver, rewriteReceiver) m [(arg, rewriteArg)]) := rfl

/-- A read of a member that is no evaluator. -/
theorem inliningRule_member {m : Member Getter} (h : isEvaluator kind m = false) :
    inliningRule E kind (.member (receiver, rewriteReceiver) m) =
      if m.ty.declares (.dual kind) then spliceDual E kind (.member (receiver, rewriteReceiver) m)
      else Visited.rebuild (.member (receiver, rewriteReceiver) m) := by
  unfold inliningRule
  dsimp only
  rw [h]
  rfl

end Inlining

/-- Passes one after the other. -/
def runPasses (E : Engine) (passes : List DualPass) (t : Expr) : Act Expr :=
  passes.foldlM (fun t pass => E.rewrite pass t) t

theorem runPasses_cons (pass : DualPass) (passes : List DualPass) (t : Expr) :
    runPasses E (pass :: passes) t = E.rewrite pass t >>= runPasses E passes := rfl

theorem runPasses_append (before after : List DualPass) (t : Expr) :
    runPasses E (before ++ after) t = runPasses E before t >>= runPasses E after :=
  List.foldlM_append

theorem rewriteDefault_eq (t : Expr) : rewriteDefault E t = runPasses E DualPass.all t := rfl

theorem Visited.given_node (t : Expr) (f : Expr → Act Expr) :
    Visited.given (t.node.map fun u => (u, f u)) = t := by
  unfold Visited.given
  rw [Node.map_map]
  show (t.node.map id).tree = t
  rw [Node.map_id, Tree.tree_node]

/-- What every node of a tree satisfies, those below its conversions satisfy. -/
theorem Tree.Everywhere.stripConversions {p : Expr → Prop} {t : Expr} (ht : t.Everywhere p) :
    (DualForm.stripConversions t).Everywhere p := by
  fun_induction DualForm.stripConversions t with
  | case1 operand m ty h ih => exact ih (ht.child (List.mem_singleton.2 rfl))
  | case2 => exact ht
  | case3 => exact ht

end DualForm
