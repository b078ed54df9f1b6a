import DualForm.Proofs.Rewriting.Inlined
import DualForm.Proofs.Rewriting.Settled

/-!
# Trees whose references are reads of parameters

* `Tree.Settled` — no pass has anything to do in the tree.
* `Tree.Inert` — the only nodes that refer to duals or factories are parameters.
* `Tree.evaluation`, `Tree.conversion` — the evaluation of a receiver on an argument, and its
  conversion to a function.

Principal results: `Inert.settled` — no pass has anything to do in an inert tree;
`run_evaluation_unknown`, `run_conversion_same`, `run_conversion_other` — what passes do to
evaluations of receivers they do not look through, and to conversions.
-/

namespace DualForm

variable {pass : DualPass} {kind : DualKind} {E : Engine} {host : Host} {I : Store → Prop}

namespace Tree

/-- No pass has anything to do. -/
def Settled (t : Expr) : Prop := (∀ pass, t.Clear pass) ∧ t.Quiet

/-- The only nodes that refer to duals or factories are parameters. -/
def Inert (t : Expr) : Prop := t.Everywhere fun u => u.refersToDual = true → ∃ p, u = .param p

theorem inert_of_unreferenced {t : Expr} (h : t.referencesDuals = false) : t.Inert :=
  (anyNode_eq_false.1 h).imp fun u hu href => by rw [hu] at href; cases href

/-- A node without references is none that a pass acts on. -/
theorem acts_of_unreferenced {u : Expr} (h : u.refersToDual = false) : pass.acts u.node = false := by
  cases pass with
  | factories =>
      cases u with
      | staticCall m | call _ m =>
          exact isBinding_of_plain (by simpa using (Bool.or_eq_false_iff.1 h).2)
      | _ => rfl
  | combinators =>
      cases u with
      | binary op lhs rhs via | unary op operand via =>
          have hvia : ∀ name, isCombinator via name = false := isCombinator_of_plain h
          simp [node, DualPass.acts, hvia]
      | _ => rfl
  | inlining kind =>
      cases u with
      | literal v ty => exact declares_of_none (by simpa [refersToDual] using h) _
      | staticMember m => exact declares_of_none (by simpa using (Bool.or_eq_false_iff.1 h).1) _
      | unary op operand via =>
          cases via with
          | none => cases op <;> rfl
          | some m =>
              have hm : m.declaring.wrapper? = none := by simpa [refersToDual] using h
              cases op <;> first | rfl | exact declares_of_none hm _
      | _ => rfl

/-- A node without references is none that inlining looks through. -/
theorem looksThrough_of_unreferenced {u : Expr} (h : u.refersToDual = false) (kind : DualKind) :
    u.looksThrough kind = false := by
  cases u with
  | member receiver m =>
      have hm := Bool.or_eq_false_iff.1 h
      simp [looksThrough, isEvaluator_of_plain (m := m) (by simpa using hm.2),
        declares_of_none (t := m.ty) (by simpa using hm.1)]
  | call receiver m args =>
      have hm : m.declaring.wrapper? = none := by simpa using (Bool.or_eq_false_iff.1 h).2
      rcases args with _ | ⟨a, _ | ⟨_, _⟩⟩
      · rfl
      · simp [looksThrough, isEvaluateMethod_of_plain hm]
      · rfl
  | _ => rfl

/-- **No pass has anything to do in an inert tree.** -/
theorem Inert.settled {t : Expr} (h : t.Inert) : t.Settled := by
  refine ⟨fun pass => h.imp fun u hu => ?_, h.imp fun u hu kind => ?_⟩
  · cases href : u.refersToDual with
    | false => exact acts_of_unreferenced href
    | true =>
        obtain ⟨p, rfl⟩ := hu href
        exact acts_param p
  · cases href : u.refersToDual with
    | false => exact looksThrough_of_unreferenced href kind
    | true =>
        obtain ⟨p, rfl⟩ := hu href
        rfl

theorem Flat.inert {t : Expr} (h : t.Flat) : t.Inert :=
  Everywhere.imp h fun u hu href => by rw [hu.1] at href; cases href

theorem inert_lambda {ps : List Param} {b : Expr} : (Tree.lambda ps b : Expr).Inert ↔ b.Inert := by
  constructor
  · intro h; exact h.child (List.mem_singleton.2 rfl)
  · intro h
    refine everywhere_single (fun href => by cases href) rfl ?_
    exact h

/-- **No pass has anything to do in a tree without references.** -/
theorem settled_of_unreferenced {t : Expr} (h : t.referencesDuals = false) : t.Settled :=
  (inert_of_unreferenced h).settled

theorem settled_lambda {ps : List Param} {b : Expr} (h : b.referencesDuals = false) :
    (Tree.lambda ps b : Expr).Settled := (inert_lambda.2 (inert_of_unreferenced h)).settled

theorem settled_param (p : Param) : (Tree.param p : Expr).Settled :=
  Inert.settled (everywhere_leaf (fun _ => ⟨p, rfl⟩) rfl)

/-- A pass leaves a settled tree as it is. -/
theorem Settled.run {t : Expr} (h : t.Settled) : pass.run E t = pure t := run_settled (h.1 pass) h.2

theorem Settled.exactly {t : Expr} (h : t.Settled) : Exactly host I (fun E => pass.run E t) t :=
  Exactly.congr (fun _ => h.run) (Exactly.pure t)

end Tree

/-! ## Evaluations and conversions of receivers -/

namespace Tree

/-- The evaluation of a receiver on an argument, by the method or through the evaluator. -/
def evaluation (kind : DualKind) (source result : Ty) (byMethod : Bool) (receiver arg : Expr) : Expr :=
  if byMethod then .call receiver (Dual.evaluateMethod kind source result) [arg]
  else .invoke (.member receiver (Dual.evaluator kind source result)) [arg]

/-- The conversion of a receiver to a function. -/
def conversion (kind : DualKind) (source result ty : Ty) (receiver : Expr) : Expr :=
  .unary .convert receiver (some (Dual.toFunctionMethod kind source result)) ty

end Tree

section Receivers

variable (source result : Ty) {receiver : Expr}

/-- A pass over a read of an evaluator that it does not look through. -/
theorem run_evaluator_unknown (h : receiver.isKnown = false) :
    pass.run E (.member receiver (Dual.evaluator kind source result)) = (do
      return .member (← pass.run E receiver) (Dual.evaluator kind source result)) := by
  have hrebuild : Visited.rebuild
      (.member (receiver, pass.run E receiver) (Dual.evaluator kind source result)) = (do
        return .member (← pass.run E receiver) (Dual.evaluator kind source result)) := by
    simp [Visited.rebuild, Node.traverse, Node.tree]
  cases pass with
  | factories => exact hrebuild
  | combinators => exact hrebuild
  | inlining other =>
      rw [DualPass.run_eq]
      show inliningRule E other (.member (receiver, _) _) = _
      unfold inliningRule
      simp only [isReceiver_unknown h, pure_bind, Bool.false_eq_true, if_false, ite_self]
      exact hrebuild

/-- A pass over the evaluation of a receiver that it does not look through. -/
theorem run_evaluation_unknown (h : receiver.isKnown = false) (byMethod : Bool) (arg : Expr) :
    pass.run E (Tree.evaluation kind source result byMethod receiver arg) = (do
      let r ← pass.run E receiver
      return Tree.evaluation kind source result byMethod r (← pass.run E arg)) := by
  cases byMethod with
  | true =>
      have hrebuild : Visited.rebuild (.call (receiver, pass.run E receiver)
          (Dual.evaluateMethod kind source result) [(arg, pass.run E arg)]) = (do
            let r ← pass.run E receiver
            return Tree.evaluation kind source result true r (← pass.run E arg)) := by
        simp [Visited.rebuild, Node.traverse, Node.tree, Tree.evaluation]
      rw [DualPass.run_eq]
      cases pass with
      | factories =>
          show factoryRule E (.call (receiver, _) _ [(arg, _)]) = _
          unfold factoryRule
          dsimp only
          rw [isBinding_evaluateMethod]
          exact hrebuild
      | combinators => exact hrebuild
      | inlining other =>
          refine (inliningRule_call other receiver arg _ _ _).trans ?_
          split
          · unfold evaluationRule
            rw [inlineCall_unknown h, pure_bind]
            exact hrebuild
          · exact hrebuild
  | false =>
      have hrebuild : Visited.rebuild
          (.invoke (.member receiver (Dual.evaluator kind source result),
            pass.run E (.member receiver (Dual.evaluator kind source result)))
            [(arg, pass.run E arg)]) = (do
              let r ← pass.run E receiver
              return Tree.evaluation kind source result false r (← pass.run E arg)) := by
        rw [run_evaluator_unknown source result h]
        simp [Visited.rebuild, Node.traverse, Node.tree, Tree.evaluation]
      rw [DualPass.run_eq]
      cases pass with
      | factories => exact hrebuild
      | combinators => exact hrebuild
      | inlining other =>
          refine (inliningRule_invoke other receiver arg _ _ _).trans ?_
          split
          · unfold evaluationRule
            rw [inlineCall_unknown h, pure_bind]
            exact hrebuild
          · exact hrebuild

theorem declaredBy_toFunctionMethod (kind other : DualKind) :
    (Dual.toFunctionMethod kind source result).declaredBy (.dual other) = decide (kind = other) := by
  unfold Method.declaredBy Dual.toFunctionMethod DeclaringType.ofTy
  rw [ofDual_declares]

/-- The pass for the kind of a conversion drops it. -/
theorem run_conversion_same (ty : Ty) : (DualPass.inlining kind).run E
    (Tree.conversion kind source result ty receiver) = (DualPass.inlining kind).run E receiver := by
  rw [DualPass.run_eq]
  show (if (Dual.toFunctionMethod kind source result).declaredBy (.dual kind) then
    (DualPass.inlining kind).run E receiver else _) = _
  rw [declaredBy_toFunctionMethod, decide_eq_true rfl, if_pos rfl]

/-- Any other pass rewrites the operand of a conversion. -/
theorem run_conversion_other (h : pass ≠ .inlining kind) (ty : Ty) :
    pass.run E (Tree.conversion kind source result ty receiver) = (do
      return Tree.conversion kind source result ty (← pass.run E receiver)) := by
  have hrebuild : Visited.rebuild (.unary .convert (receiver, pass.run E receiver)
      (some (Dual.toFunctionMethod kind source result)) ty) = (do
        return Tree.conversion kind source result ty (← pass.run E receiver)) := by
    simp [Visited.rebuild, Node.traverse, Node.tree, Tree.conversion]
  rw [DualPass.run_eq]
  cases pass with
  | factories => exact hrebuild
  | combinators => exact hrebuild
  | inlining other =>
      have hkind : kind ≠ other := fun hk => h (by rw [hk])
      show (if (Dual.toFunctionMethod kind source result).declaredBy (.dual other) then _ else _) = _
      rw [declaredBy_toFunctionMethod, decide_eq_false hkind]
      exact hrebuild

end Receivers

end DualForm
