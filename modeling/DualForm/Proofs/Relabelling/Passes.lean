import DualForm.Proofs.Relabelling.Evaluation

/-!
# Passes and the numbers of identities

Principal results: on an engine whose answers do not depend on numbers, no pass does (`pass_equivariant`), and
neither does the default pipeline (`rewriteLambda_equivariant`).
-/

namespace DualForm

open Act (Equivariant)

variable {R : Relabelling} {E : Engine} {m : ExprNode Expr} {f g : Expr → Act Expr}

theorem rewriteArgs_equivariant {args : List Expr}
    (h : ∀ u ∈ args, Equivariant R (Tree.relabel R.map) (f u) (g (u.relabel R.map))) :
    Equivariant R (List.map (Tree.relabel R.map)) ((args.map fun u => (u, f u)).mapM Prod.snd)
      (((args.map (Tree.relabel R.map)).map fun u => (u, g u)).mapM Prod.snd) := by
  rw [List.mapM_map, List.mapM_map]
  exact Equivariant.mapM args h

/-- Rebuilding a node is rewriting its subtrees. -/
theorem rebuild_equivariant
    (h : ∀ u ∈ m.children, Equivariant R (Tree.relabel R.map) (f u) (g (u.relabel R.map))) :
    Equivariant R (Tree.relabel R.map) (Visited.over m f).rebuild
      (Visited.over (ExprNode.relabel R.map m) g).rebuild := by
  have htraverse : Equivariant R (ExprNode.relabel R.map) ((Visited.over m f).traverse Prod.snd)
      ((Visited.over (ExprNode.relabel R.map m) g).traverse Prod.snd) := by
    cases m with
    | literal | param | staticMember => exact .pure rfl
    | member target m => exact (h target (by simp [Node.children])).bind fun _ => .pure rfl
    | staticCall m args => exact (rewriteArgs_equivariant h).bind fun _ => .pure rfl
    | call target m args =>
        refine (h target (by simp [Node.children])).bind fun _ => ?_
        exact (rewriteArgs_equivariant fun a ha => h a (by simp [Node.children, ha])).bind fun _ => .pure rfl
    | binary op lhs rhs via =>
        exact (h lhs (by simp [Node.children])).bind fun _ =>
          (h rhs (by simp [Node.children])).bind fun _ => .pure rfl
    | unary op operand via ty => exact (h operand (by simp [Node.children])).bind fun _ => .pure rfl
    | lambda params body => exact (h body (by simp [Node.children])).bind fun _ => .pure rfl
    | invoke callee args =>
        refine (h callee (by simp [Node.children])).bind fun _ => ?_
        exact (rewriteArgs_equivariant fun a ha => h a (by simp [Node.children, ha])).bind fun _ => .pure rfl
    | conditional test ifTrue ifFalse =>
        exact (h test (by simp [Node.children])).bind fun _ =>
          (h ifTrue (by simp [Node.children])).bind fun _ =>
            (h ifFalse (by simp [Node.children])).bind fun _ => .pure rfl
  exact htraverse.bind fun n => .pure (Tree.tree_relabel n)

/-! ## Binding factories -/

@[simp] theorem isBinding_relabel {ρ : Nat → Nat} (m : Method Invoker) : isBinding (m.relabel ρ) = isBinding m := by
  unfold isBinding
  rw [Method.relabel_signature]

theorem compile_equivariant (l : Lam) :
    Equivariant R (Func.relabel R.map) (compile l) (compile (l.relabel R.map)) := by
  unfold compile
  rw [Lambda.relabel_arity]
  exact newFunc_equivariant l.arity (.closure l [])

theorem ofLambda_equivariant (l : Lam) : Equivariant R (Compiled.relabel R.map) (Compiled.ofLambda l)
    (Compiled.ofLambda (l.relabel R.map)) :=
  (compile_equivariant l).bind fun _ => .pure rfl

theorem bindingArgument_equivariant (hE : E.Respects R) (t : Expr) :
    Equivariant R (Argument.relabel R.map) (bindingArgument E t) (bindingArgument E (t.relabel R.map)) := by
  have hcompiled : Equivariant R (Argument.relabel R.map) (do return .deferred (← Deferred.ofSubtree t))
      (do return .deferred (← Deferred.ofSubtree (t.relabel R.map))) :=
    (ofLambda_equivariant ⟨[], t⟩).bind fun c => .pure rfl
  refine (tryEvaluate_equivariant hE t).bind fun v => ?_
  cases v with
  | some v => exact .pure rfl
  | none =>
      cases t with
      | lambda params body =>
          cases params with
          | nil => exact (ofLambda_equivariant ⟨[], body⟩).bind fun c => .pure rfl
          | cons p params => exact hcompiled
      | _ => exact hcompiled

theorem factoryRule_equivariant (hE : E.Respects R)
    (h : ∀ u ∈ m.children, Equivariant R (Tree.relabel R.map) (f u) (g (u.relabel R.map))) :
    Equivariant R (Tree.relabel R.map) (factoryRule E (Visited.over m f))
      (factoryRule E (Visited.over (ExprNode.relabel R.map m) g)) := by
  have hrebuild := rebuild_equivariant h
  cases m with
  | staticCall m args =>
      have hrefused : Equivariant R (Tree.relabel R.map)
          (Act.fail ((Visited.over (.staticCall m args) f).given.unexpected "a factory receiver") : Act Expr)
          (Act.fail ((Visited.over (ExprNode.relabel R.map (.staticCall m args)) g).given.unexpected
            "a factory receiver")) :=
        .fail (by rw [Visited.given_over, Visited.given_over, Tree.tree_relabel, Tree.unexpected_relabel])
      show Equivariant R _ (if isBinding m then _ else _) (if isBinding (m.relabel R.map) then _ else _)
      rw [isBinding_relabel]
      split
      · exact hrefused
      · exact hrebuild
  | call target m args =>
      show Equivariant R _ (if ¬ isBinding m then _ else _) (if ¬ isBinding (m.relabel R.map) then _ else _)
      rw [isBinding_relabel]
      split
      · exact hrebuild
      · refine (h target (by simp [Node.children])).bind fun receiver => ?_
        refine (evaluateNotNull_equivariant hE receiver).bind fun v => ?_
        rw [Value.factory?_relabel]
        cases Value.factory? v with
        | none => exact .fail (by rw [Tree.unexpected_relabel])
        | some k =>
            have hargs : Equivariant R (List.map (Argument.relabel R.map))
                ((args.map fun u => (u, f u)).mapM fun a => do bindingArgument E (← a.2))
                (((args.map (Tree.relabel R.map)).map fun u => (u, g u)).mapM
                  fun a => do bindingArgument E (← a.2)) := by
              rw [List.mapM_map, List.mapM_map]
              exact Equivariant.mapM args fun a ha =>
                (h a (by simp [Node.children, ha])).bind fun t => bindingArgument_equivariant hE t
            refine hargs.bind fun bs => (bindArguments_equivariant k bs).bind fun bound => .pure ?_
            rw [Tree.relabel, Value.ty_relabel]
  | literal | param | staticMember | member | binary | unary | lambda | invoke | conditional => exact hrebuild

/-! ## Combining specifications -/

@[simp] theorem isCombinator_relabel {ρ : Nat → Nat} (via : Option (Method Invoker)) (name : String) :
    isCombinator (via.map (Method.relabel ρ)) name = isCombinator via name := by
  cases via <;> simp [isCombinator]

theorem predicateOperand_equivariant (hE : E.Respects R) {u : Expr}
    (h : Equivariant R (Tree.relabel R.map) (f u) (g (u.relabel R.map))) :
    Equivariant R (Lambda.relabel R.map) (predicateOperand E (u, f u))
      (predicateOperand E (u.relabel R.map, g (u.relabel R.map))) := by
  unfold predicateOperand
  rw [Tree.stripConversions_relabel]
  refine (foldDual_equivariant hE ..).bind fun l => ?_
  cases l with
  | some l => exact .pure rfl
  | none =>
      refine h.bind fun t => ?_
      rw [Tree.stripConversions_relabel]
      generalize stripConversions t = other
      have hfold := foldDual_equivariant hE .specification other
      have hrefused : Equivariant R (Lambda.relabel R.map)
          (Act.fail (other.unexpected "a specification or a predicate lambda") : Act Lam)
          (Act.fail ((other.relabel R.map).unexpected "a specification or a predicate lambda")) :=
        .fail (by rw [Tree.unexpected_relabel])
      by_cases hlambda : ∃ p body, other = .lambda [p] body
      · obtain ⟨p, body, rfl⟩ := hlambda
        exact .pure rfl
      · have hother : ∀ p body, other ≠ .lambda [p] body := fun p body h => hlambda ⟨p, body, h⟩
        cases other with
        | lambda params body =>
            rcases params with _ | ⟨p, _ | ⟨q, params⟩⟩
            case cons.nil => exact absurd rfl (hother p body)
            all_goals
              refine hfold.bind fun l => ?_
              cases l with
              | some l => exact .pure rfl
              | none => exact hrefused
        | _ =>
            refine hfold.bind fun l => ?_
            cases l with
            | some l => exact .pure rfl
            | none => exact hrefused

theorem combinatorRule_equivariant (hE : E.Respects R)
    (h : ∀ u ∈ m.children, Equivariant R (Tree.relabel R.map) (f u) (g (u.relabel R.map))) :
    Equivariant R (Tree.relabel R.map) (combinatorRule E (Visited.over m f))
      (combinatorRule E (Visited.over (ExprNode.relabel R.map m) g)) := by
  have hrebuild := rebuild_equivariant h
  have hrewrite : ∀ l : Lam, Equivariant R (Tree.relabel R.map) (E.rewrite .combinators l.tree)
      (E.rewrite .combinators (l.relabel R.map).tree) := fun l => by
    rw [Lambda.relabel_tree]
    exact hE.rewrite .combinators l.tree
  cases m with
  | binary op lhs rhs via =>
      have hl := predicateOperand_equivariant hE (h lhs (by simp [Node.children]))
      have hr := predicateOperand_equivariant hE (h rhs (by simp [Node.children]))
      show Equivariant R _ (if (op = .and ∨ op = .andAlso) ∧ isCombinator via Specification.andName then _ else _)
        (if (op = .and ∨ op = .andAlso) ∧ isCombinator (via.map _) Specification.andName then _ else _)
      rw [isCombinator_relabel, isCombinator_relabel]
      split
      · exact hl.bind fun l => hr.bind fun r =>
          (Equivariant.lift (Lambda.combined_relabel R.injective _ l r)).bind hrewrite
      · split
        · exact hl.bind fun l => hr.bind fun r =>
            (Equivariant.lift (Lambda.combined_relabel R.injective _ l r)).bind hrewrite
        · exact hrebuild
  | unary op operand via ty =>
      have ho := predicateOperand_equivariant hE (h operand (by simp [Node.children]))
      show Equivariant R _ (if op = .not ∧ isCombinator via Specification.notName then _ else _)
        (if op = .not ∧ isCombinator (via.map _) Specification.notName then _ else _)
      rw [isCombinator_relabel]
      split
      · exact ho.bind fun l => (Equivariant.lift (Lambda.negation_relabel l)).bind hrewrite
      · exact hrebuild
  | literal | param | staticMember | member | staticCall | call | lambda | invoke | conditional =>
      exact hrebuild

/-! ## Inlining duals -/

@[simp] theorem isEvaluator_relabel {ρ : Nat → Nat} (kind : DualKind) (m : Member Getter) :
    isEvaluator kind (m.relabel ρ) = isEvaluator kind m := by
  simp [isEvaluator]

@[simp] theorem isEvaluateMethod_relabel {ρ : Nat → Nat} (kind : DualKind) (m : Method Invoker) :
    isEvaluateMethod kind (m.relabel ρ) = isEvaluateMethod kind m := by
  simp [isEvaluateMethod]

theorem receiverLambda_equivariant (hE : E.Respects R) (kind : DualKind) (t : Expr) :
    Equivariant R (Option.map (Lambda.relabel R.map)) (receiverLambda E kind t)
      (receiverLambda E kind (t.relabel R.map)) := by
  have hother := foldDual_equivariant hE kind t
  cases t with
  | lambda params body =>
      rcases params with _ | ⟨p, _ | ⟨q, params⟩⟩
      · exact hother
      · exact .pure rfl
      · exact hother
  | _ => exact hother

theorem isReceiver_equivariant (hE : E.Respects R) (t : Expr) :
    Equivariant R id (isReceiver E t) (isReceiver E (t.relabel R.map)) := by
  have hother : Equivariant R id (do return (← tryEvaluate E t).isSome)
      (do return (← tryEvaluate E (t.relabel R.map)).isSome) :=
    (tryEvaluate_equivariant hE t).bind fun v => .pure (by cases v <;> rfl)
  cases t with
  | lambda params body => exact .pure (by rw [List.length_map]; rfl)
  | _ => exact hother

theorem inlineCall_equivariant (hE : E.Respects R) (kind : DualKind) (receiver arg : Expr) :
    Equivariant R (Option.map (Tree.relabel R.map)) (inlineCall E kind receiver arg)
      (inlineCall E kind (receiver.relabel R.map) (arg.relabel R.map)) := by
  refine (receiverLambda_equivariant hE kind receiver).bind fun l => ?_
  cases l with
  | none => exact .pure rfl
  | some l =>
      exact (Equivariant.lift (Lambda.applied_relabel R.injective l arg)).bind fun body =>
        (hE.rewrite ..).bind fun t => .pure rfl

theorem spliceDual_equivariant (hE : E.Respects R) (kind : DualKind)
    (h : ∀ u ∈ m.children, Equivariant R (Tree.relabel R.map) (f u) (g (u.relabel R.map))) :
    Equivariant R (Tree.relabel R.map) (spliceDual E kind (Visited.over m f))
      (spliceDual E kind (Visited.over (ExprNode.relabel R.map m) g)) := by
  unfold spliceDual
  rw [Visited.given_over, Visited.given_over, Tree.tree_relabel]
  refine (foldDual_equivariant hE kind m.tree).bind fun l => ?_
  cases l with
  | some l =>
      show Equivariant R _ _ (E.rewrite _ (l.relabel R.map).tree)
      rw [Lambda.relabel_tree]
      exact hE.rewrite ..
  | none => exact rebuild_equivariant h

theorem evaluationRule_equivariant (hE : E.Respects R) (kind : DualKind) (receiver arg : Expr)
    (h : ∀ u ∈ m.children, Equivariant R (Tree.relabel R.map) (f u) (g (u.relabel R.map))) :
    Equivariant R (Tree.relabel R.map) (evaluationRule E kind receiver arg (Visited.over m f))
      (evaluationRule E kind (receiver.relabel R.map) (arg.relabel R.map)
        (Visited.over (ExprNode.relabel R.map m) g)) := by
  refine (inlineCall_equivariant hE kind receiver arg).bind fun t => ?_
  cases t with
  | some t => exact .pure rfl
  | none => exact rebuild_equivariant h

theorem inliningRule_equivariant (hE : E.Respects R) (kind : DualKind)
    (h : ∀ u ∈ m.children, Equivariant R (Tree.relabel R.map) (f u) (g (u.relabel R.map))) :
    Equivariant R (Tree.relabel R.map) (inliningRule E kind (Visited.over m f))
      (inliningRule E kind (Visited.over (ExprNode.relabel R.map m) g)) := by
  have hrebuild := rebuild_equivariant h
  have hsplice : ∀ b : Bool, Equivariant R (Tree.relabel R.map)
      (if b then spliceDual E kind (Visited.over m f) else (Visited.over m f).rebuild)
      (if b then spliceDual E kind (Visited.over (ExprNode.relabel R.map m) g)
        else (Visited.over (ExprNode.relabel R.map m) g).rebuild) := by
    intro b
    cases b with
    | true => exact spliceDual_equivariant hE kind h
    | false => exact hrebuild
  cases m with
  | invoke callee args =>
      cases callee with
      | member receiver m =>
          rcases args with _ | ⟨arg, _ | ⟨arg', args⟩⟩
          · exact hrebuild
          · show Equivariant R _ (if isEvaluator kind m then _ else _)
              (if isEvaluator kind (m.relabel R.map) then _ else _)
            rw [isEvaluator_relabel]
            split
            · exact evaluationRule_equivariant hE kind receiver arg h
            · exact hrebuild
          · exact hrebuild
      | literal | param | staticMember | staticCall | call | binary | unary | lambda | invoke
      | conditional => exact hrebuild
  | call receiver m args =>
      rcases args with _ | ⟨arg, _ | ⟨arg', args⟩⟩
      · exact hrebuild
      · show Equivariant R _ (if isEvaluateMethod kind m then _ else _)
          (if isEvaluateMethod kind (m.relabel R.map) then _ else _)
        rw [isEvaluateMethod_relabel]
        split
        · exact evaluationRule_equivariant hE kind receiver arg h
        · exact hrebuild
      · exact hrebuild
  | member receiver m =>
      show Equivariant R _ (if isEvaluator kind m then _ else _)
        (if isEvaluator kind (m.relabel R.map) then _ else _)
      rw [isEvaluator_relabel, Member.relabel_signature]
      split
      · refine (isReceiver_equivariant hE receiver).bind fun b => ?_
        cases b with
        | true => exact h receiver (by simp [Node.children])
        | false => exact hsplice _
      · exact hsplice _
  | staticMember m =>
      show Equivariant R _ (if m.ty.declares (.dual kind) then _ else _)
        (if (m.relabel R.map).ty.declares (.dual kind) then _ else _)
      rw [Member.relabel_signature]
      exact hsplice _
  | literal v ty => exact hsplice _
  | unary op operand via ty =>
      cases op with
      | not | negate => exact hrebuild
      | convert =>
          cases via with
          | none => exact hrebuild
          | some m =>
              show Equivariant R _ (if m.declaredBy (.dual kind) then _ else _)
                (if (m.relabel R.map).declaredBy (.dual kind) then _ else _)
              rw [Method.declaredBy_relabel]
              split
              · exact h operand (by simp [Node.children])
              · exact hrebuild
  | param | staticCall | binary | lambda | conditional => exact hrebuild

/-! ## Passes -/

theorem pass_equivariant (hE : E.Respects R) (pass : DualPass) (t : Expr) :
    Equivariant R (Tree.relabel R.map) (pass.run E t) (pass.run E (t.relabel R.map)) := by
  induction t using Tree.childwise with
  | step t ih =>
      rw [DualPass.run_eq, DualPass.run_eq, Tree.node_relabel]
      cases pass with
      | factories => exact factoryRule_equivariant hE ih
      | combinators => exact combinatorRule_equivariant hE ih
      | inlining kind => exact inliningRule_equivariant hE kind ih

theorem runPasses_equivariant (hE : E.Respects R) : ∀ (passes : List DualPass) (t : Expr),
    Equivariant R (Tree.relabel R.map) (runPasses E passes t) (runPasses E passes (t.relabel R.map))
  | [], _ => .pure rfl
  | pass :: passes, t => (hE.rewrite pass t).bind fun u => runPasses_equivariant hE passes u

theorem rewriteLambda_equivariant (hE : E.Respects R) (l : Lam) :
    Equivariant R (Lambda.relabel R.map) (rewriteLambda E l) (rewriteLambda E (l.relabel R.map)) := by
  have hpasses := runPasses_equivariant hE DualPass.all l.tree
  rw [← Lambda.relabel_tree] at hpasses
  exact hpasses.bind fun t => .lift (Tree.expectLambda_relabel t)

end DualForm
