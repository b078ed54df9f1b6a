import DualForm.Proofs.Dual.Inlining
import DualForm.Proofs.Ending

/-!
# Reads of evaluators on known receivers

* `Folded host I t v` — `t` is a literal or a chain of reads that settle, and `v` is its value.
* `Tree.unread kind t` — the tree below the reads of evaluators of a kind at the top of `t`.

Principal results: `run_evaluatorRead_concludes`, `run_unread_concludes` — inlining drops the reads of evaluators on a
receiver that folds, whatever it folds to; `run_receiver` — what it does with the receiver then is a matter of
the receiver's type; `evaluatorRead_by_type` — when a read becomes the tree form of a dual, when it is refused
and when neither happens, and what evaluating it does instead.
-/

namespace DualForm

open Act (Gives)

variable {host : Host} {I : Store → Prop} {kind : DualKind} {E : Engine} {r t : Expr} {v w : Value}
  {m : Member Getter} {d : Dual}

/-! ## Chains of settled reads -/

/-- The tree is a chain of reads that settle, and this is its value. -/
inductive Folded (host : Host) (I : Store → Prop) : Expr → Value → Prop where
  | literal (v : Value) (ty : Ty) : Folded host I (.literal v ty) v
  | static {m : Member Getter} {v : Value} (h : Exactly host I (fun E => m.read E none) v) :
      Folded host I (.staticMember m) v
  | member {r : Expr} {m : Member Getter} {w v : Value} (hr : Folded host I r w)
      (h : Exactly host I (fun E => m.read E (some w)) v) : Folded host I (.member r m) v

namespace Folded

theorem folds (h : Folded host I t v) : t.folds = true := by
  induction h with
  | literal | static => rfl
  | member _ _ ih => exact ih

theorem exactly (h : Folded host I t v) : Exactly host I (fun E => tryEvaluate E t) (some v) := by
  induction h with
  | literal v ty => exact Exactly.pure _
  | static h => exact h.bind (Exactly.pure _)
  | member hr h ih => exact ih.bind (h.bind (Exactly.pure _))

theorem evaluated (h : Folded host I t v) (scope : Scope) :
    Exactly host I (fun E => evaluate E scope t) v := by
  induction h with
  | literal v ty => exact Exactly.pure _
  | static h => exact h
  | member hr h ih => exact ih.bind h

end Folded

theorem expect_none (h : v.dual? kind = none) :
    Dual.expect kind v = .error (.typeMismatch kind.name (Value.ty v).text) := by
  unfold Dual.expect
  rw [h]

/-- The tree form of the dual a chain folds to. -/
theorem foldDual_exactly {l : Lam} (ht : Folded host I t (.dual d)) (hd : d.kind = kind)
    (hl : Exactly host I (fun E => E.tree d) l) : Exactly host I (fun E => foldDual E kind t) (some l) := by
  subst hd
  have hrest : Exactly host I (fun E => do return some (← E.tree (← Act.lift (Dual.expect d.kind (.dual d)))))
      (some l) := (Exactly.lift (expect_dual d)).bind (hl.bind (Exactly.pure _))
  exact ht.exactly.bind hrest

/-- A chain that folds to no dual of the kind is refused, and null is told apart. -/
theorem foldDual_refuses (ht : Folded host I t w) (hw : w.dual? kind = none) :
    Refuses host I (fun E => foldDual E kind t)
      (if w.isNull then .nullValue t.text else .typeMismatch kind.name (Value.ty w).text) := by
  refine Concludes.bind (o := .error _) ht.exactly ?_
  show Refuses host I (fun E => if w.isNull then Act.fail (.nullValue t.text) else (do
    return some (← E.tree (← Act.lift (Dual.expect kind w))))) _
  cases w.isNull with
  | true => exact Refuses.fail _
  | false =>
      rw [expect_none hw]
      exact (Refuses.fail _).bind

/-! ## The receiver below the reads of evaluators -/

theorem isReceiver_of_folds (h : r.folds = true) :
    isReceiver E r = (do return (← tryEvaluate E r).isSome) := by
  cases r <;> first | rfl | cases h

/-- A read of an evaluator on a known receiver is the receiver, rewritten. -/
theorem run_evaluatorRead (hm : isEvaluator kind m = true) (E : Engine) (r : Expr) : ∃ rest : Act Expr,
    (DualPass.inlining kind).run E (.member r m) = (do
      if ← isReceiver E r then (DualPass.inlining kind).run E r else rest) := by
  refine ⟨if m.ty.declares (.dual kind) then
      spliceDual E kind (.member (r, (DualPass.inlining kind).run E r) m)
    else Visited.rebuild (.member (r, (DualPass.inlining kind).run E r) m), ?_⟩
  rw [DualPass.run_eq]
  show inliningRule E kind (.member (r, _) m) = _
  unfold inliningRule
  dsimp only
  rw [hm]
  simp

theorem run_evaluatorRead_concludes {o : Except Error Expr} (hr : Folded host I r v)
    (hm : isEvaluator kind m = true) (h : Concludes host I (fun E => (DualPass.inlining kind).run E r) o) :
    Concludes host I (fun E => (DualPass.inlining kind).run E (.member r m)) o := by
  have hreceiver : Exactly host I (fun E => isReceiver E r) true :=
    Exactly.congr (fun E => isReceiver_of_folds hr.folds) (hr.exactly.bind (Exactly.pure _))
  choose rest hrest using fun E => run_evaluatorRead hm E r
  exact Concludes.congr hrest (Concludes.bind hreceiver h)

theorem run_evaluatorRead_gives {post : Expr → Prop} (hr : r.folds = true) (hm : isEvaluator kind m = true)
    (h : Gives (fun _ => True) post ((DualPass.inlining kind).run E r)) :
    Gives (fun _ => True) post ((DualPass.inlining kind).run E (.member r m)) := by
  obtain ⟨rest, hrest⟩ := run_evaluatorRead hm E r
  have hreceiver : Gives (fun _ => True) (· = true) (isReceiver E r) := by
    rw [isReceiver_of_folds hr]
    exact (tryEvaluate_of_folds hr).bind fun o => Gives.pure fun ho => ho
  rw [hrest]
  refine hreceiver.bind fun b => ?_
  cases b with
  | true => exact h.imp fun _ ht _ => ht
  | false => exact Gives.unknown.imp fun _ _ hb => by cases hb

namespace Tree

/-- The tree below the reads of evaluators of this kind at its top. -/
def unread (kind : DualKind) : Expr → Expr
  | .member target m => if isEvaluator kind m then unread kind target else .member target m
  | t => t

/-- Nothing more is to be taken off. -/
theorem isEvaluator_unread {target : Expr} (h : t.unread kind = .member target m) :
    isEvaluator kind m = false := by
  induction t using nodewise with
  | member target' m' ih =>
      unfold unread at h
      split at h
      · exact ih h
      · next hm =>
        cases h
        simpa using hm
  | _ => cases h

end Tree

/-- Reads of evaluators are dropped on the way to the receiver. -/
theorem run_unread_concludes {o : Except Error Expr} (hr : Folded host I r v)
    (h : Concludes host I (fun E => (DualPass.inlining kind).run E (r.unread kind)) o) :
    Concludes host I (fun E => (DualPass.inlining kind).run E r) o := by
  induction hr with
  | literal | static => exact h
  | @member r m w v hr _ ih =>
      unfold Tree.unread at h
      split at h
      · next hm => exact run_evaluatorRead_concludes hr hm (ih h)
      · exact h

theorem run_unread_gives {post : Expr → Prop} (hr : r.folds = true)
    (h : Gives (fun _ => True) post ((DualPass.inlining kind).run E (r.unread kind))) :
    Gives (fun _ => True) post ((DualPass.inlining kind).run E r) := by
  induction r using Tree.nodewise with
  | member target m ih =>
      unfold Tree.unread at h
      split at h
      · next hm => exact run_evaluatorRead_gives hr hm (ih hr h)
      · exact h
  | _ => exact h

section Receiver

variable {core : Expr} (hcore : core.folds = true)
  (htop : ∀ target m, core = .member target m → isEvaluator kind m = false)

include hcore htop

/-- What the pass does with a receiver that is no read of an evaluator. -/
theorem run_receiver (E : Engine) : (DualPass.inlining kind).run E core =
    if core.ty.declares (.dual kind) then do
      match ← foldDual E kind core with
      | some l => E.rewrite (.inlining kind) l.tree
      | none => Visited.rebuild (core.node.map fun u => (u, (DualPass.inlining kind).run E u))
    else Visited.rebuild (core.node.map fun u => (u, (DualPass.inlining kind).run E u)) := by
  rw [DualPass.run_eq]
  have hgiven := Visited.given_node core fun u => (DualPass.inlining kind).run E u
  cases core with
  | literal | staticMember => rfl
  | member target m =>
      refine (inliningRule_member kind target _ (htop target m rfl)).trans ?_
      unfold spliceDual
      rfl
  | _ => cases hcore

/-- A receiver of another type stays what it is at its top, and does not become a lambda. -/
theorem run_receiver_gives (hty : core.ty.declares (.dual kind) = false) :
    Gives (fun _ => True) (fun t => t.head = core.head ∧ t.lambda? = none)
      ((DualPass.inlining kind).run E core) := by
  rw [run_receiver hcore htop, if_neg (by simp [hty])]
  refine (rebuild_results (Gives.logic _) (R := fun _ _ => True) fun _ _ => Gives.unknown).imp ?_
  rintro t ⟨hhead, -⟩
  rw [Visited.given_node] at hhead
  refine ⟨hhead, ?_⟩
  cases core <;> cases t <;> first | rfl | contradiction

end Receiver

/-- A receiver of the dual's type is the tree form of the dual it folds to. -/
theorem run_receiver_exactly {core : Expr} (hcore : Folded host I core (.dual d)) (hd : d.kind = kind)
    (htop : ∀ target m, core = .member target m → isEvaluator kind m = false)
    (hty : core.ty.declares (.dual kind) = true) {l : Lam} (hl : Exactly host I (fun E => E.tree d) l)
    (href : l.tree.referencesDuals = false) :
    Exactly host I (fun E => (DualPass.inlining kind).run E core) l.tree := by
  have hagain : Exactly host I (fun E => E.rewrite (.inlining kind) l.tree) l.tree :=
    rewrite_exactly (Tree.settled_of_unreferenced href).exactly
  refine Exactly.congr (fun E => (run_receiver hcore.folds htop E).trans (if_pos hty)) ?_
  exact (foldDual_exactly hcore hd hl).bind hagain

/-- A receiver of the dual's type that folds to no dual of the kind is refused. -/
theorem run_receiver_refuses {core : Expr} (hcore : Folded host I core w) (hw : w.dual? kind = none)
    (htop : ∀ target m, core = .member target m → isEvaluator kind m = false)
    (hty : core.ty.declares (.dual kind) = true) :
    Refuses host I (fun E => (DualPass.inlining kind).run E core)
      (if w.isNull then .nullValue core.text else .typeMismatch kind.name (Value.ty w).text) := by
  refine Concludes.congr (o := .error _) (fun E => (run_receiver hcore.folds htop E).trans (if_pos hty)) ?_
  exact (foldDual_refuses hcore hw).bind

section Evaluation

variable (source result : Ty) (scope : Scope)

theorem evaluate_evaluatorRead_exactly {f : Func} (hr : Folded host I r (.dual d)) (hd : d.kind = kind)
    (hf : Exactly host I (fun E => E.function d) f) :
    Exactly host I (fun E => evaluate E scope (.member r (Dual.evaluator kind source result))) (.func f) := by
  subst hd
  exact (hr.evaluated scope).bind ((Exactly.lift (expect_dual d)).bind (hf.bind (Exactly.pure _)))

theorem evaluate_evaluatorRead_refuses (hr : Folded host I r v) (hv : v.dual? kind = none) :
    Refuses host I (fun E => evaluate E scope (.member r (Dual.evaluator kind source result)))
      (.typeMismatch kind.name (Value.ty v).text) := by
  have hread : ∀ E : Engine, (Dual.evaluator kind source result).read E (some v) = (do
      return .func (← E.function (← Act.lift (Dual.expect kind v)))) := fun _ => rfl
  refine Concludes.bind (o := .error _) (hr.evaluated scope) (Concludes.congr (o := .error _) hread ?_)
  rw [expect_none hv]
  exact (Refuses.fail _).bind

end Evaluation

/-- **A read of an evaluator on a known receiver goes by the type of the receiver, not by its value.** Let `r`
fold to `v` and, below the reads of evaluators of the kind at its top, to `w`.

* If the tree there is of the dual's type, inlining makes of the read the tree form of the dual that `w` is, and
  refuses everything else.
* If it is of another type, what inlining returns is that tree with its subtrees rewritten, and no lambda,
  whatever the values are and in whatever store it runs.
* Evaluating the read gives the function form of the dual that `v` is, and refuses everything else, whatever the
  types are. -/
theorem evaluatorRead_by_type (kind : DualKind) (hr : Folded host I r v)
    (hw : Folded host I (r.unread kind) w) (source result : Ty) :
    let read := Tree.member r (Dual.evaluator kind source result)
    let core := r.unread kind
    (core.ty.declares (.dual kind) = true →
      (∀ d l, w = .dual d → d.kind = kind → Exactly host I (fun E => E.tree d) l →
        l.tree.referencesDuals = false →
          Exactly host I (fun E => (DualPass.inlining kind).run E read) l.tree) ∧
      (w.dual? kind = none → Refuses host I (fun E => (DualPass.inlining kind).run E read)
        (if w.isNull then .nullValue core.text else .typeMismatch kind.name (Value.ty w).text))) ∧
    (core.ty.declares (.dual kind) = false →
      ∀ E s u t, (DualPass.inlining kind).run E read s = .ok t u → t.head = core.head ∧ t.lambda? = none) ∧
    ∀ scope,
      (∀ d f, v = .dual d → d.kind = kind → Exactly host I (fun E => E.function d) f →
        Exactly host I (fun E => evaluate E scope read) (.func f)) ∧
      (v.dual? kind = none → Refuses host I (fun E => evaluate E scope read)
        (.typeMismatch kind.name (Value.ty v).text)) := by
  intro read core
  have hm : isEvaluator kind (Dual.evaluator kind source result) = true := by
    rw [isEvaluator_evaluator, decide_eq_true rfl]
  have htop : ∀ target m, core = .member target m → isEvaluator kind m = false :=
    fun _ _ h => Tree.isEvaluator_unread h
  -- What becomes of the tree below the reads of evaluators becomes of the receiver, and of the read.
  have hconcludes : ∀ {o}, Concludes host I (fun E => (DualPass.inlining kind).run E core) o →
      Concludes host I (fun E => (DualPass.inlining kind).run E read) o := fun h =>
    run_evaluatorRead_concludes hr hm (run_unread_concludes hr h)
  refine ⟨fun hty => ⟨?_, fun hnone => ?_⟩, fun hty E s u t ht => ?_, fun scope => ⟨?_, ?_⟩⟩
  · rintro d l rfl hd hl href
    exact hconcludes (o := .ok _) (run_receiver_exactly hw hd htop hty hl href)
  · exact hconcludes (o := .error _) (run_receiver_refuses hw hnone htop hty)
  · have hgives := run_receiver_gives (E := E) hw.folds htop hty
    exact ((run_evaluatorRead_gives hr.folds hm (run_unread_gives hr.folds hgives)).result s t u ht
      trivial).2
  · rintro d f rfl hd hf
    exact evaluate_evaluatorRead_exactly source result scope hr hd hf
  · exact evaluate_evaluatorRead_refuses source result scope hr

namespace Slotted

open Spliced (successor Held)

/-- `x => x + 1`, its tree form published. -/
def dual : Dual := Spliced.dual 0 .int successor

/-- A field, declared to be of this type. -/
def inner (ty : Ty) : Member Getter :=
  { declaring := .nominal "Holder", name := "inner", ty, kind := .field, isStatic := false, getter := .field }

/-- The field of a record that holds a value there. -/
def slot (v : Value) (ty : Ty) : Expr :=
  .member (Tree.constant (.record 1 (.nominal "Holder") [("inner", v)])) (inner ty)

/-- The read of the evaluator of projections of integers on a tree. -/
def read (r : Expr) : Expr := .member r (Dual.evaluator .projection .int .int)

theorem slot_folded (v : Value) (ty : Ty) : Folded host I (slot v ty) v :=
  .member (.literal _ _) (Exactly.congr (fun _ => rfl) (Exactly.pure v))

end Slotted

open Slotted Spliced in
/-- A field that holds a projection is replaced by its tree where it is declared to be a projection, and kept
where it is declared to be of any type; a field that holds a number is refused where it is declared to be a
projection. -/
theorem evaluatorRead_by_type_slotted :
    (∃ s, Held s) ∧
      Exactly Registry.empty.host Held
        (fun E => (DualPass.inlining .projection).run E (read (slot (.dual Slotted.dual) (.projection .int .int))))
        successor.tree ∧
      (∃ t, (DualPass.inlining .projection).run .exhausted (read (slot (.dual Slotted.dual) .any)) .initial =
        .ok t .initial ∧ t.lambda? = none) ∧
      Refuses Registry.empty.host Held
        (fun E => (DualPass.inlining .projection).run E (read (slot (.int 5) (.projection .int .int))))
        (.typeMismatch "Projection" "int") := by
  have hfolded : ∀ v ty, Folded Registry.empty.host Held (slot v ty) v := slot_folded
  have htree : Exactly Registry.empty.host Held (fun E => E.tree Slotted.dual) successor :=
    tree_of_published fun s hs => hs.1
  have href : successor.tree.referencesDuals = false :=
    Tree.anyNode_eq_false.2 <| Tree.everywhere_single rfl rfl <|
      Tree.everywhere_pair rfl rfl (Tree.everywhere_leaf rfl rfl) (Tree.everywhere_leaf rfl rfl)
  have htyped := evaluatorRead_by_type .projection (hfolded (.dual Slotted.dual) (.projection .int .int))
    (hfolded _ _) .int .int
  have hany := evaluatorRead_by_type .projection (hfolded (.dual Slotted.dual) .any) (hfolded _ _) .int .int
  have hnumber := evaluatorRead_by_type .projection (hfolded (.int 5) (.projection .int .int))
    (hfolded _ _) .int .int
  refine ⟨⟨store, held⟩, (htyped.1 rfl).1 _ _ rfl rfl htree href,
    ⟨slot (.dual Slotted.dual) .any, rfl, ?_⟩, (hnumber.1 rfl).2 rfl⟩
  exact (hany.2.1 rfl .exhausted .initial .initial _ rfl).2

end DualForm
