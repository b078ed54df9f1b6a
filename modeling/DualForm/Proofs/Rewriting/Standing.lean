import DualForm.Proofs.Delivery
import DualForm.Proofs.Rewriting.Inert

/-!
# Trees that stand for duals

* `Lambda.Tame l p` — `p` is the only parameter of `l`, and the body refers to duals by reads of `p`
  at most.
* `Denotes form D converted kind l t` — `t` stands for the dual with the lambda `l`: a literal of a
  dual with `D`, which has the tree form `form`, or specifications combined, with conversions around
  the operands, and around the whole if `converted`.
* `Known form D K converted kind l t` — what becomes of such a tree when specifications have been
  combined: a literal or a lambda, of one of the kinds `K`.
* `Forms host I form D` — every dual with `D` hands out its tree form, a lambda with one parameter
  and without references.

Principal results: `Denotes.tame`; `Denotes.run` — combining specifications leads from the one to the
other; `Known.run_other`, `Known.run_same`, `Known.lambda` — a pass leaves a known dual of another
kind as it is, puts the lambda in the place of one of its kind, and finds that lambda behind it.
-/

namespace DualForm

variable {form : Dual → Lam} {D : Dual → Prop} {K : DualKind → Prop} {kind : DualKind}
  {converted : Bool} {l : Lam} {t : Expr}

/-- The body refers to duals by reads of the only parameter at most. -/
structure Lambda.Tame (l : Lam) (p : Param) : Prop where
  single : l.params = [p]
  references : l.body.Everywhere fun u => u.refersToDual = true → u = .param p

/-- The operator of a combination, and the connective it stands for. -/
def Combines (op connective : BinaryOp) (via : Option (Method Invoker)) : Prop :=
  (op = .and ∨ op = .andAlso) ∧ isCombinator via Specification.andName ∧ connective = .andAlso ∨
    (op = .or ∨ op = .orElse) ∧ isCombinator via Specification.orName ∧ connective = .orElse

/-- `t` stands for the dual with the lambda `l`. -/
inductive Denotes (form : Dual → Lam) (D : Dual → Prop) : Bool → DualKind → Lam → Expr → Prop
  | literal {converted : Bool} {d : Dual} {ty : Ty} : D d → ty.wrapper? = some (.dual d.kind) →
      Denotes form D converted d.kind (form d) (.literal (.dual d) ty)
  | combined {converted : Bool} {op connective : BinaryOp} {via : Option (Method Invoker)}
      {lhs rhs : Expr} {l r k : Lam} : Combines op connective via →
      Denotes form D true .specification l lhs → Denotes form D true .specification r rhs →
      Lambda.combined connective l r = .ok k →
      Denotes form D converted .specification k (.binary op lhs rhs via)
  | negated {converted : Bool} {via : Option (Method Invoker)} {ty : Ty} {operand : Expr} {l k : Lam} :
      isCombinator via Specification.notName = true → Denotes form D true .specification l operand →
      Lambda.negation l = .ok k → Denotes form D converted .specification k (.unary .not operand via ty)
  | converted {kind : DualKind} {source result ty : Ty} {t : Expr} {l : Lam} :
      Denotes form D true kind l t →
      Denotes form D true kind l (Tree.conversion kind source result ty t)

/-- `t` stands for the dual with the lambda `l`, without combinations. -/
inductive Known (form : Dual → Lam) (D : Dual → Prop) (K : DualKind → Prop) :
    Bool → DualKind → Lam → Expr → Prop
  | literal {converted : Bool} {d : Dual} {ty : Ty} : K d.kind → D d →
      ty.wrapper? = some (.dual d.kind) → Known form D K converted d.kind (form d) (.literal (.dual d) ty)
  | lambda {converted : Bool} {l : Lam} {p : Param} : K .specification → l.Tame p →
      Known form D K converted .specification l l.tree
  | converted {kind : DualKind} {source result ty : Ty} {t : Expr} {l : Lam} :
      Known form D K true kind l t →
      Known form D K true kind l (Tree.conversion kind source result ty t)

/-- Every dual with `D` hands out its tree form, a lambda with one parameter and without
references. -/
structure Forms (host : Host) (I : Store → Prop) (form : Dual → Lam) (D : Dual → Prop) : Prop where
  provides : ∀ d, D d → ∀ N, Completes host I N True (· = form d) fun E => E.tree d
  single : ∀ d, D d → ∃ p, (form d).params = [p]
  unreferenced : ∀ d, D d → (form d).tree.referencesDuals = false

/-! ## Lambdas that refer to duals by their parameter -/

namespace Tree

/-- Replacing the only parameter that refers to duals by another one. -/
theorem references_substitute {p q : Param}
    (h : t.Everywhere fun u => u.refersToDual = true → u = .param q) :
    (substitute q (.param p) t).Everywhere fun u => u.refersToDual = true → u = .param p := by
  induction t using Tree.childwise with
  | step t ih =>
      by_cases hp : ∃ r, t = .param r
      · obtain ⟨r, rfl⟩ := hp
        refine everywhere_iff.2 ⟨?_, ?_⟩
        · unfold substitute
          split
          · exact fun _ => rfl
          · intro href
            exact absurd (Tree.param.inj (h.here href)) (by assumption)
        · unfold substitute
          split <;> intro c hc <;> cases hc
      · have hparam : ∀ r, t ≠ .param r := fun r hr => hp ⟨r, hr⟩
        refine everywhere_iff.2 ⟨fun href => ?_, fun c hc => ?_⟩
        · rw [refersToDual_substitute (hparam _)] at href
          exact absurd (h.here href) (hparam q)
        · rw [substitute_children hparam] at hc
          obtain ⟨u, hu, rfl⟩ := List.mem_map.1 hc
          exact ih u hu (h.child hu)

end Tree

namespace Lambda

variable {p : Param}

theorem tame_of_unreferenced (hp : l.params = [p]) (h : l.tree.referencesDuals = false) : l.Tame p := by
  refine ⟨hp, ?_⟩
  have hbody := (Tree.anyNode_eq_false.1 h).child (c := l.body) (List.mem_singleton.2 rfl)
  exact hbody.imp fun u hu href => by rw [hu] at href; cases href

theorem Tame.inert (h : l.Tame p) : l.tree.Inert :=
  Tree.inert_lambda.2 (h.references.imp fun _ hu href => ⟨p, hu href⟩)

theorem combined_tame {op : BinaryOp} {r k : Lam} {q : Param} (hl : l.Tame p) (hr : r.Tame q)
    (h : Lambda.combined op l r = .ok k) : k.Tame p := by
  obtain ⟨p', hp, q', hq, rfl⟩ := combined_ok.1 h
  obtain rfl : p = p' := List.singleton_inj.1 (hl.single.symm.trans hp)
  obtain rfl : q = q' := List.singleton_inj.1 (hr.single.symm.trans hq)
  exact ⟨rfl, Tree.everywhere_pair (fun h => by cases h) rfl hl.references
    (Tree.references_substitute hr.references)⟩

theorem negation_tame {k : Lam} (hl : l.Tame p) (h : Lambda.negation l = .ok k) : k.Tame p := by
  obtain ⟨p', hp, rfl⟩ := negation_ok.1 h
  obtain rfl : p = p' := List.singleton_inj.1 (hl.single.symm.trans hp)
  exact ⟨rfl, Tree.everywhere_single (fun h => by cases h) rfl hl.references⟩

end Lambda

theorem Denotes.tame (hsingle : ∀ d, D d → ∃ p, (form d).params = [p])
    (hunreferenced : ∀ d, D d → (form d).tree.referencesDuals = false)
    (h : Denotes form D converted kind l t) : ∃ p, l.Tame p := by
  induction h with
  | literal hd =>
      obtain ⟨p, hp⟩ := hsingle _ hd
      exact ⟨p, Lambda.tame_of_unreferenced hp (hunreferenced _ hd)⟩
  | combined _ _ _ hk ihl ihr =>
      obtain ⟨p, hl⟩ := ihl
      obtain ⟨q, hr⟩ := ihr
      exact ⟨p, Lambda.combined_tame hl hr hk⟩
  | negated _ _ hk ih =>
      obtain ⟨p, hl⟩ := ih
      exact ⟨p, Lambda.negation_tame hl hk⟩
  | converted _ ih => exact ih

section Passes

variable {host : Host} {I : Store → Prop} {N : Nat} {ends : Prop} {pass : DualPass} {E : Engine}

/-- A pass that is asked for completes where the pass does. -/
theorem rewrite_completes {u : Expr} {post : Expr → Prop}
    (h : Completes host I N ends post fun E => pass.run E u) :
    Completes host I N ends post fun E => E.rewrite pass u :=
  Completes.step_of (y := fun E => pass.run E u) rfl (fun _ => rfl) h

/-- A pass asked for on a settled tree. -/
theorem rewrite_settled {u : Expr} (h : u.Settled) :
    Completes host I N ends (· = u) fun E => E.rewrite pass u :=
  rewrite_completes (Completes.congr (fun _ => h.run) (Completes.pure rfl))

/-- The pipeline leaves a settled lambda as it is. -/
theorem rewriteLambda_settled {k : Lam} (h : k.tree.Settled) :
    Completes host I N ends (· = k) fun E => rewriteLambda E k := by
  have hpasses : ∀ passes : List DualPass,
      Completes host I N ends (· = k.tree) fun E => runPasses E passes k.tree := by
    intro passes
    induction passes with
    | nil => exact Completes.pure rfl
    | cons pass passes ih =>
        refine Completes.congr (fun _ => runPasses_cons ..) ((rewrite_settled h).bind fun _ heq => ?_)
        subst heq
        exact ih
  refine (hpasses DualPass.all).bind fun _ heq => ?_
  subst heq
  exact Completes.lift (a := k) rfl rfl

/-! ## Duals that are known -/

namespace Known

theorem tame (hforms : Forms host I form D) (h : Known form D K converted kind l t) :
    ∃ p, l.Tame p := by
  induction h with
  | literal _ hd =>
      obtain ⟨p, hp⟩ := hforms.single _ hd
      exact ⟨p, Lambda.tame_of_unreferenced hp (hforms.unreferenced _ hd)⟩
  | lambda _ hl => exact ⟨_, hl⟩
  | converted _ ih => exact ih

theorem kept (h : Known form D K converted kind l t) : K kind := by
  induction h with
  | literal hk => exact hk
  | lambda hk => exact hk
  | converted _ ih => exact ih

/-- The other kinds are all that counts. -/
theorem restrict {K' : DualKind → Prop} (h : Known form D K converted kind l t) (hk : K' kind) :
    Known form D K' converted kind l t := by
  induction h with
  | literal _ hd hty => exact .literal hk hd hty
  | lambda _ hl => exact .lambda hk hl
  | converted _ ih => exact .converted (ih hk)

theorem not_member (h : Known form D K converted kind l t) (receiver : Expr) (m : Member Getter) :
    t ≠ .member receiver m := by
  cases h <;> intro h <;> cases h

/-- A pass for another kind leaves a known dual as it is. -/
theorem run_other (h : Known form D K converted kind l t) (hpass : pass ≠ .inlining kind) :
    pass.run E t = pure t := by
  induction h with
  | @literal _ d ty _ _ hty =>
      cases pass with
      | factories => rfl
      | combinators => rfl
      | inlining other =>
          have hother : ty.declares (.dual other) = false := by
            have hkind : d.kind ≠ other := fun h => hpass (by rw [h])
            unfold Ty.declares
            rw [hty]
            simpa using hkind
          show (if ty.declares (.dual other) then _ else _) = _
          rw [hother]
          rfl
  | lambda _ hl => exact hl.inert.settled.run
  | converted _ ih =>
      rw [run_conversion_other _ _ hpass, ih hpass, pure_bind]

/-- Folding a literal asks for the tree form of the dual, whatever type the literal is given. -/
theorem foldDual_typed (d : Dual) (ty : Ty) :
    foldDual E d.kind (.literal (.dual d) ty) = (do return some (← E.tree d)) := by
  have hexpect : Dual.expect d.kind (.dual d) = .ok d := by simp [Dual.expect, Value.dual?]
  unfold foldDual tryEvaluate
  simp [Datum.isNull, hexpect, Act.lift]

/-- The lambda behind a literal. -/
theorem foldDual_literal (hforms : Forms host I form D) {d : Dual} {ty : Ty} (hd : D d) :
    Completes host I N ends (· = some (form d)) fun E => foldDual E d.kind (.literal (.dual d) ty) := by
  refine Completes.congr (fun _ => foldDual_typed d ty) ?_
  refine (hforms.provides d hd N).weaken.bind fun l hl => Completes.pure ?_
  rw [hl]

/-- The pass for its kind finds the lambda behind a known dual. -/
theorem lambda_behind (hforms : Forms host I form D) (h : Known form D K false kind l t) :
    Completes host I N ends (· = some l) fun E => receiverLambda E kind t := by
  cases h with
  | literal _ hd _ => exact foldDual_literal hforms hd
  | @lambda _ _ p _ hl =>
      obtain ⟨ps, b⟩ := l
      obtain rfl : ps = [p] := hl.single
      exact Completes.pure rfl

theorem isReceiver (h : Known form D K false kind l t) : isReceiver E t = pure true := by
  cases h with
  | literal => rfl
  | @lambda _ _ p _ hl =>
      obtain ⟨ps, b⟩ := l
      obtain rfl : ps = [p] := hl.single
      rfl

/-- The pass for its kind puts the lambda in the place of a known dual. -/
theorem run_same (hforms : Forms host I form D) (h : Known form D K converted kind l t) :
    Completes host I N ends (· = l.tree) fun E => (DualPass.inlining kind).run E t := by
  induction h with
  | @literal _ d ty _ hd hty =>
      have hrun : ∀ E : Engine, (DualPass.inlining d.kind).run E (.literal (.dual d) ty) =
          unfolded E d := by
        intro E
        have hdeclares : ty.declares (.dual d.kind) = true := by
          unfold Ty.declares
          rw [hty]
          simp
        show (if ty.declares (.dual d.kind) then spliceDual E d.kind (.literal (.dual d) ty) else _) = _
        rw [if_pos hdeclares]
        unfold spliceDual unfolded
        rw [show Visited.given (.literal (.dual d) ty) = .literal (.dual d) ty from rfl, foldDual_typed]
        simp
      refine Completes.congr hrun ((hforms.provides d hd N).weaken.bind fun l hl => ?_)
      subst hl
      exact rewrite_settled (Tree.settled_of_unreferenced (hforms.unreferenced d hd))
  | lambda _ hl =>
      exact Completes.congr (fun _ => hl.inert.settled.run) (Completes.pure rfl)
  | converted _ ih => exact Completes.congr (fun _ => run_conversion_same _ _ _) ih

end Known

/-! ## Specifications, combined -/

/-- What is below the conversions of a known specification. -/
theorem Known.stripped (h : Known form D K converted kind l t) (hkind : kind = .specification) :
    Known form D K false .specification l (stripConversions t) := by
  induction h with
  | literal hk hd hty =>
      rw [← hkind]
      exact .literal hk hd hty
  | lambda hk hl => exact .lambda hk hl
  | converted _ ih =>
      subst hkind
      unfold Tree.conversion stripConversions
      rw [if_pos (by rw [declaredBy_toFunctionMethod]; rfl)]
      exact ih rfl

/-- What is below the conversions of something that stands for a specification. -/
theorem Denotes.stripped (h : Denotes form D converted kind l t) (hkind : kind = .specification) :
    (∃ d ty, D d ∧ d.kind = .specification ∧ l = form d ∧
      stripConversions t = .literal (.dual d) ty) ∨ (stripConversions t).folds = false := by
  induction h with
  | literal hd => exact .inl ⟨_, _, hd, hkind, rfl, rfl⟩
  | combined | negated => exact .inr rfl
  | converted _ ih =>
      subst hkind
      unfold Tree.conversion stripConversions
      rw [if_pos (by rw [declaredBy_toFunctionMethod]; rfl)]
      exact ih rfl

/-- The lambda of an operand. -/
theorem predicateOperand_completes (hforms : Forms host I form D)
    (h : Denotes form D converted .specification l t)
    (hrun : Completes host I N ends (Known form D (fun _ => True) converted .specification l)
      fun E => DualPass.combinators.run E t) :
    Completes host I N ends (· = l) fun E =>
      predicateOperand E (t, DualPass.combinators.run E t) := by
  unfold predicateOperand
  rcases h.stripped rfl with ⟨d, ty, hd, hkind, rfl, hstrip⟩ | hfolds
  · have hfold : Completes host I N ends (· = some (form d)) fun E =>
        foldDual E d.kind (.literal (.dual d) ty) := Known.foldDual_literal hforms hd
    rw [hkind, ← hstrip] at hfold
    refine hfold.bind fun o ho => ?_
    subst ho
    exact Completes.pure rfl
  · refine Completes.congr (fun E => by rw [foldDual_of_not_folds hfolds, pure_bind]) ?_
    refine hrun.bind fun u hu => ?_
    have hstripped := hu.stripped rfl
    generalize stripConversions u = v at hstripped
    generalize hkind : DualKind.specification = kind at hstripped
    cases hstripped with
    | @literal _ d ty _ hd _ =>
        refine (Known.foldDual_literal hforms hd).bind fun o ho => ?_
        subst ho
        exact Completes.pure rfl
    | @lambda _ _ p _ hl =>
        obtain ⟨ps, b⟩ := l
        obtain rfl : ps = [p] := hl.single
        exact Completes.pure rfl

theorem combinatorRule_binary {op connective : BinaryOp} {via : Option (Method Invoker)}
    (h : Combines op connective via) (lhs rhs : Expr × Act Expr) :
    combinatorRule E (.binary op lhs rhs via) = (do
      let l ← predicateOperand E lhs
      let r ← predicateOperand E rhs
      E.rewrite .combinators (← Act.lift (Lambda.combined connective l r)).tree) := by
  unfold combinatorRule
  rcases h with ⟨hop, hvia, rfl⟩ | ⟨hop, hvia, rfl⟩
  · exact if_pos ⟨hop, hvia⟩
  · have hand : ¬ (op = .and ∨ op = .andAlso) := by rcases hop with rfl | rfl <;> simp
    exact (if_neg fun h => hand h.1).trans (if_pos ⟨hop, hvia⟩)

theorem combinatorRule_not {via : Option (Method Invoker)} {ty : Ty}
    (h : isCombinator via Specification.notName = true) (operand : Expr × Act Expr) :
    combinatorRule E (.unary .not operand via ty) = (do
      let l ← predicateOperand E operand
      E.rewrite .combinators (← Act.lift (Lambda.negation l)).tree) := if_pos ⟨rfl, h⟩

/-- A combination becomes the combined lambda. -/
theorem combination_completes (hforms : Forms host I form D) {op connective : BinaryOp}
    {via : Option (Method Invoker)} {lhs rhs : Expr} {l r k : Lam} {p : Param}
    (hop : Combines op connective via) (hl : Denotes form D true .specification l lhs)
    (hr : Denotes form D true .specification r rhs) (hk : Lambda.combined connective l r = .ok k)
    (hp : k.Tame p)
    (hlhs : Completes host I N ends (Known form D (fun _ => True) true .specification l)
      fun E => DualPass.combinators.run E lhs)
    (hrhs : Completes host I N ends (Known form D (fun _ => True) true .specification r)
      fun E => DualPass.combinators.run E rhs) :
    Completes host I N ends (· = k.tree) fun E => DualPass.combinators.run E (.binary op lhs rhs via) := by
  refine Completes.congr (fun E => DualPass.run_eq _ _) ?_
  refine Completes.congr (fun E => combinatorRule_binary hop _ _) ?_
  refine (predicateOperand_completes hforms hl hlhs).bind fun _ hl => ?_
  refine (predicateOperand_completes hforms hr hrhs).bind fun _ hr => ?_
  subst hl hr
  refine (Completes.lift (p := (· = k)) hk rfl).bind fun _ hk => ?_
  subst hk
  exact rewrite_settled hp.inert.settled

/-- **Combining specifications makes one lambda of each combination.** -/
theorem Denotes.run (hforms : Forms host I form D) (h : Denotes form D converted kind l t) :
    Completes host I N ends (Known form D (fun _ => True) converted kind l)
      fun E => DualPass.combinators.run E t := by
  have htame := fun {converted kind l t} (h : Denotes form D converted kind l t) =>
    h.tame hforms.single hforms.unreferenced
  induction h with
  | literal hd hty => exact Completes.pure (.literal trivial hd hty)
  | @combined converted op connective via lhs rhs l r k hop hl hr hk ihl ihr =>
      have hdenotes : Denotes form D converted .specification k (.binary op lhs rhs via) :=
        .combined hop hl hr hk
      obtain ⟨p, hp⟩ := htame hdenotes
      refine (combination_completes hforms hop hl hr hk hp ihl ihr).imp fun u hu => ?_
      subst hu
      exact .lambda trivial hp
  | @negated converted via ty operand l k hvia hl hk ih =>
      have hdenotes : Denotes form D converted .specification k (.unary .not operand via ty) :=
        .negated hvia hl hk
      obtain ⟨p, hp⟩ := htame hdenotes
      refine Completes.congr (fun E => DualPass.run_eq _ _) ?_
      refine Completes.congr (fun E => combinatorRule_not hvia _) ?_
      refine (predicateOperand_completes hforms hl ih).bind fun _ hl => ?_
      subst hl
      refine (Completes.lift (p := (· = k)) hk rfl).bind fun _ hk => ?_
      subst hk
      refine (rewrite_settled hp.inert.settled).imp fun u hu => ?_
      subst hu
      exact .lambda trivial hp
  | converted _ ih =>
      refine Completes.congr (fun E => run_conversion_other _ _ (by simp) _) ?_
      exact ih.bind fun u hu => Completes.pure (.converted hu)

end Passes

end DualForm
