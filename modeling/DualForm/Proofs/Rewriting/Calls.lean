import DualForm.Proofs.Rewriting.Visit

/-!
# What passes do to evaluations of duals

* `spliced`, `unfolded` — the tree of a dual, applied to an argument or as it is, visited again.

Principal results: `run_plain` — a pass rebuilds a node that refers to no dual; `run_invoked_other`,
`run_called_other` — it rewrites the argument of an evaluation it is not for; `run_invoked_same`,
`run_called_same` — an evaluation it is for becomes the tree of the dual, applied and visited again;
`run_functionRead_same`, `run_converted_same` — so does a dual handed on as a function, as it is.
-/

namespace DualForm

variable {pass : DualPass} {E : Engine} {d : Dual} {kind : DualKind}

/-! ## Types of references -/

theorem declares_of_none {t : Ty} (h : t.wrapper? = none) (w : Wrapper) : t.declares w = false := by
  unfold Ty.declares
  rw [h]
  rfl

theorem ofDual_wrapper (kind : DualKind) (source result : Ty) :
    (Ty.ofDual kind source result).wrapper? = some (.dual kind) := by
  cases kind <;> rfl

theorem ofDual_declares (kind other : DualKind) (source result : Ty) :
    (Ty.ofDual kind source result).declares (.dual other) = decide (kind = other) := by
  unfold Ty.declares
  rw [ofDual_wrapper]
  cases kind <;> cases other <;> rfl

theorem isEvaluator_evaluator (kind other : DualKind) (source result : Ty) :
    isEvaluator other (Dual.evaluator kind source result) = decide (kind = other) := by
  unfold isEvaluator Member.declaredBy Dual.evaluator DeclaringType.ofTy
  rw [ofDual_declares]
  cases kind <;> cases other <;> rfl

theorem isEvaluateMethod_evaluateMethod (kind other : DualKind) (source result : Ty) :
    isEvaluateMethod other (Dual.evaluateMethod kind source result) = decide (kind = other) := by
  unfold isEvaluateMethod Method.declaredBy Dual.evaluateMethod DeclaringType.ofTy
  rw [ofDual_declares]
  cases kind <;> cases other <;> rfl

theorem isBinding_evaluateMethod (kind : DualKind) (source result : Ty) :
    isBinding (Dual.evaluateMethod kind source result) = false := by
  unfold isBinding Dual.evaluateMethod DeclaringType.ofTy DeclaringType.wrapper?
  rw [ofDual_wrapper]
  rfl

theorem isEvaluator_of_plain {m : Member Getter} (h : m.declaring.wrapper? = none) :
    isEvaluator kind m = false := by
  unfold isEvaluator Member.declaredBy
  rw [declares_of_none h]
  rfl

theorem isEvaluateMethod_of_plain {m : Method Invoker} (h : m.declaring.wrapper? = none) :
    isEvaluateMethod kind m = false := by
  unfold isEvaluateMethod Method.declaredBy
  rw [declares_of_none h]
  rfl

theorem isBinding_of_plain {m : Method Invoker} (h : m.declaring.wrapper? = none) :
    isBinding m = false := by
  unfold isBinding
  rw [h]
  rfl

theorem isCombinator_of_plain {via : Option (Method Invoker)}
    (h : via.any (·.declaring.wrapper?.isSome) = false) (name : String) :
    isCombinator via name = false := by
  cases via with
  | none => rfl
  | some m =>
      have hm : m.declaring.wrapper? = none := by simpa using h
      unfold isCombinator Method.declaredBy
      rw [Option.any_some, declares_of_none hm]
      rfl

/-! ## Nodes without references -/

/-- A rule rebuilds a node that refers to no dual, unless it applies an evaluator to one argument. -/
theorem rule_plain {n : Visited} (hn : n.given.refersToDual = false)
    (hcallee : ∀ receiver m rewriteCallee arg,
      n = .invoke (.member receiver m, rewriteCallee) [arg] → m.declaring.wrapper? = none) :
    pass.rule E n = n.rebuild := by
  have hmethod : ∀ m : Method Invoker,
      (m.result.wrapper?.isSome || m.declaring.wrapper?.isSome) = false →
        m.declaring.wrapper? = none := by
    intro m h
    simpa using (Bool.or_eq_false_iff.1 h).2
  cases pass with
  | factories =>
      show factoryRule E n = _
      unfold factoryRule
      split
      · rw [if_neg (by rw [isBinding_of_plain (hmethod _ hn)]; exact Bool.false_ne_true)]
      · rw [if_pos (by rw [isBinding_of_plain (hmethod _ hn)]; exact Bool.false_ne_true)]
      · rfl
  | combinators =>
      show combinatorRule E n = _
      unfold combinatorRule
      split
      · rw [isCombinator_of_plain hn, isCombinator_of_plain hn]
        simp
      · rw [isCombinator_of_plain hn]
        simp
      · rfl
  | inlining kind =>
      show inliningRule E kind n = _
      unfold inliningRule
      split
      · rw [isEvaluator_of_plain (hcallee _ _ _ _ rfl)]
        rfl
      · rw [isEvaluateMethod_of_plain (hmethod _ hn)]
        rfl
      · rename_i receiver rewriteReceiver m
        have hm := Bool.or_eq_false_iff.1 hn
        rw [isEvaluator_of_plain (by simpa using hm.2), declares_of_none (by simpa using hm.1)]
        rfl
      · rename_i m
        have hm := Bool.or_eq_false_iff.1 hn
        rw [declares_of_none (by simpa using hm.1)]
        rfl
      · rename_i v ty
        have hty : ty.wrapper? = none := by
          simpa [Visited.given, Node.map, Node.tree, Tree.refersToDual] using hn
        rw [declares_of_none hty]
        rfl
      · rename_i operand rewriteOperand m ty
        have hm : m.declaring.wrapper? = none := by
          simpa [Visited.given, Node.map, Node.tree, Tree.refersToDual] using hn
        unfold Method.declaredBy
        rw [declares_of_none hm]
        rfl
      · rfl

/-- A pass rebuilds a node that refers to no dual, unless it applies an evaluator to one argument. -/
theorem run_plain {t : Expr} (ht : t.refersToDual = false)
    (hcallee : ∀ receiver m arg, t = .invoke (.member receiver m) [arg] →
      m.declaring.wrapper? = none) :
    pass.run E t = Visited.rebuild (t.node.map fun u => (u, pass.run E u)) := by
  have hgiven := Visited.given_node t fun u => pass.run E u
  rw [DualPass.run_eq]
  refine rule_plain (by rw [hgiven]; exact ht) fun receiver m rewriteCallee arg h => ?_
  rw [h] at hgiven
  exact hcallee receiver m _ hgiven.symm

/-! ## Evaluations of literal duals -/

theorem run_literal_other (h : pass ≠ .inlining d.kind) : pass.run E d.literal = pure d.literal := by
  cases pass with
  | factories => rfl
  | combinators => rfl
  | inlining kind =>
      have hkind : d.kind ≠ kind := fun hk => h (by rw [hk])
      show (if d.signature.declares (.dual kind) then _ else _) = _
      unfold Dual.signature
      rw [ofDual_declares, decide_eq_false hkind]
      rfl

theorem run_functionRead_other (h : pass ≠ .inlining d.kind) :
    pass.run E d.functionRead = pure d.functionRead := by
  have hliteral := run_literal_other (E := E) h
  have hrebuild : Visited.rebuild
      (.member (d.literal, pass.run E d.literal) (Dual.evaluator d.kind d.source d.result)) =
        pure d.functionRead := by
    rw [hliteral]
    rfl
  cases pass with
  | factories => exact hrebuild
  | combinators => exact hrebuild
  | inlining kind =>
      have hkind : d.kind ≠ kind := fun hk => h (by rw [hk])
      have hevaluator : isEvaluator kind (Dual.evaluator d.kind d.source d.result) = false := by
        rw [isEvaluator_evaluator, decide_eq_false hkind]
      exact (inliningRule_member kind d.literal _ hevaluator).trans hrebuild

theorem run_converted_other (h : pass ≠ .inlining d.kind) :
    pass.run E d.converted = pure d.converted := by
  have hrebuild : Visited.rebuild (.unary .convert (d.literal, pass.run E d.literal)
      (some (Dual.toFunctionMethod d.kind d.source d.result)) (.func [d.source] d.result)) =
        pure d.converted := by
    rw [run_literal_other h]
    rfl
  cases pass with
  | factories => exact hrebuild
  | combinators => exact hrebuild
  | inlining kind =>
      have hkind : d.kind ≠ kind := fun hk => h (by rw [hk])
      have hdeclared : (Dual.toFunctionMethod d.kind d.source d.result).declaredBy (.dual kind)
          = false := by
        unfold Method.declaredBy Dual.toFunctionMethod DeclaringType.ofTy
        rw [ofDual_declares, decide_eq_false hkind]
      show (if (Dual.toFunctionMethod d.kind d.source d.result).declaredBy (.dual kind) then _
        else _) = _
      rw [hdeclared]
      exact hrebuild

theorem run_invoked_other (h : pass ≠ .inlining d.kind) (arg : Expr) :
    pass.run E (d.invoked arg) = (do return d.invoked (← pass.run E arg)) := by
  have hrebuild : Visited.rebuild
      (.invoke (d.functionRead, pass.run E d.functionRead) [(arg, pass.run E arg)]) =
        (do return d.invoked (← pass.run E arg)) := by
    rw [run_functionRead_other h]
    simp [Visited.rebuild, Node.traverse, Node.tree, Dual.invoked]
  cases pass with
  | factories => exact hrebuild
  | combinators => exact hrebuild
  | inlining kind =>
      have hkind : d.kind ≠ kind := fun hk => h (by rw [hk])
      refine (inliningRule_invoke kind d.literal arg _ _ _).trans ?_
      rw [isEvaluator_evaluator, decide_eq_false hkind]
      exact hrebuild

theorem run_called_other (h : pass ≠ .inlining d.kind) (arg : Expr) :
    pass.run E (d.called arg) = (do return d.called (← pass.run E arg)) := by
  have hrebuild : Visited.rebuild (.call (d.literal, pass.run E d.literal)
      (Dual.evaluateMethod d.kind d.source d.result) [(arg, pass.run E arg)]) =
        (do return d.called (← pass.run E arg)) := by
    rw [run_literal_other h]
    simp [Visited.rebuild, Node.traverse, Node.tree, Dual.called]
  cases pass with
  | factories =>
      show factoryRule E (.call (d.literal, _) _ [(arg, _)]) = _
      unfold factoryRule
      dsimp only
      rw [isBinding_evaluateMethod]
      exact hrebuild
  | combinators => exact hrebuild
  | inlining kind =>
      have hkind : d.kind ≠ kind := fun hk => h (by rw [hk])
      refine (inliningRule_call kind d.literal arg _ _ _).trans ?_
      rw [isEvaluateMethod_evaluateMethod, decide_eq_false hkind]
      exact hrebuild

/-- The tree of a dual, applied and visited again. -/
def spliced (E : Engine) (d : Dual) (arg : Expr) : Act Expr := do
  let l ← E.tree d
  let body ← Act.lift (l.applied arg)
  E.rewrite (.inlining d.kind) body

theorem foldDual_literal (d : Dual) : foldDual E d.kind d.literal = (do return some (← E.tree d)) := by
  have hexpect : Dual.expect d.kind (.dual d) = .ok d := by
    simp [Dual.expect, Value.dual?]
  unfold foldDual Dual.literal tryEvaluate
  simp [Datum.isNull, hexpect, Act.lift]

theorem evaluationRule_literal (d : Dual) (arg : Expr) (n : Visited) :
    evaluationRule E d.kind d.literal arg n = spliced E d arg := by
  unfold evaluationRule inlineCall
  rw [show receiverLambda E d.kind d.literal = foldDual E d.kind d.literal from rfl,
    foldDual_literal]
  unfold spliced
  simp

theorem run_invoked_same (d : Dual) (arg : Expr) :
    (DualPass.inlining d.kind).run E (d.invoked arg) = spliced E d arg := by
  refine (inliningRule_invoke d.kind d.literal arg _ _ _).trans ?_
  rw [isEvaluator_evaluator, decide_eq_true rfl, if_pos rfl]
  exact evaluationRule_literal ..

theorem run_called_same (d : Dual) (arg : Expr) :
    (DualPass.inlining d.kind).run E (d.called arg) = spliced E d arg := by
  refine (inliningRule_call d.kind d.literal arg _ _ _).trans ?_
  rw [isEvaluateMethod_evaluateMethod, decide_eq_true rfl, if_pos rfl]
  exact evaluationRule_literal ..

/-! ## Duals handed on as functions -/

/-- The tree of a dual, visited again. -/
def unfolded (E : Engine) (d : Dual) : Act Expr := do
  let l ← E.tree d
  E.rewrite (.inlining d.kind) l.tree

theorem run_literal_same (d : Dual) :
    (DualPass.inlining d.kind).run E d.literal = unfolded E d := by
  show (if d.signature.declares (.dual d.kind) then spliceDual E d.kind _ else _) = _
  unfold Dual.signature
  rw [ofDual_declares, decide_eq_true rfl, if_pos rfl]
  unfold spliceDual unfolded
  rw [show Visited.given (.literal (.dual d) (.ofDual d.kind d.source d.result)) = d.literal from rfl,
    foldDual_literal]
  simp

theorem run_functionRead_same (d : Dual) :
    (DualPass.inlining d.kind).run E d.functionRead = unfolded E d := by
  show (do
    if isEvaluator d.kind (Dual.evaluator d.kind d.source d.result) then
      if ← isReceiver E d.literal then
        return ← (DualPass.inlining d.kind).run E d.literal
    _) = _
  rw [isEvaluator_evaluator, decide_eq_true rfl, if_pos rfl, run_literal_same]
  simp [Dual.literal, isReceiver, tryEvaluate]

theorem run_converted_same (d : Dual) :
    (DualPass.inlining d.kind).run E d.converted = unfolded E d := by
  have hdeclared : (Dual.toFunctionMethod d.kind d.source d.result).declaredBy (.dual d.kind) = true := by
    unfold Method.declaredBy Dual.toFunctionMethod DeclaringType.ofTy
    rw [ofDual_declares, decide_eq_true rfl]
  show (if (Dual.toFunctionMethod d.kind d.source d.result).declaredBy (.dual d.kind) then
    (DualPass.inlining d.kind).run E d.literal else _) = _
  rw [hdeclared, if_pos rfl, run_literal_same]

end DualForm
