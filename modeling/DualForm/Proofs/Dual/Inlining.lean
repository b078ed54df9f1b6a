import DualForm.Proofs.Rewriting.Inert

/-!
# Inlining one dual

A dual whose tree form refers to no dual is inlined by splicing the argument into the body. The
passes before that of the dual rewrite the argument where it stands, the others rewrite each copy.

* `Tree.readsEvaluator kind` — a read of the evaluator that inlining duals of the kind looks through.
* `Tree.Unapplied p t` — `t` applies `p` to no single argument.
* `Stages host I given result` — what each pass of the pipeline is given, and what the last one
  makes of it, in whatever state with `I` it runs.

Principal results: `run_substituted` — a pass over a body with a replaced parameter rewrites the
replacement, in a body without references; `rewriteDefault_inlines` — the pipeline makes of an
evaluation of such a dual its body with the rewritten argument, and of a dual handed on its lambda.
The argument must not be the read of an evaluator that the body applies
(`rewriteDefault_applied_evaluator`), and what the passes make of it must not depend on the state
(`rewriteDefault_copies_apart`).
-/

namespace DualForm

variable {pass : DualPass} {kind : DualKind} {E : Engine} {host : Host} {I : Store → Prop}

/-! ## Applications of evaluators -/

namespace Tree

/-- A read of the evaluator of this kind on a receiver that inlining looks through. -/
def readsEvaluator (kind : DualKind) : Expr → Bool
  | .member receiver m => isEvaluator kind m && receiver.isKnown
  | _ => false

/-- The parameter is applied to no single argument. -/
def Unapplied (p : Param) (t : Expr) : Prop := t.Everywhere fun u => ∀ arg, u ≠ .invoke (.param p) [arg]

/-- A read of an evaluator that stands in a body after a substitution, and not before, is the
replacement. -/
theorem readsEvaluator_of_substitute {p : Param} {a t : Expr} (ht : t.refersToDual = false)
    (h : (substitute p a t).readsEvaluator kind = true) :
    t = .param p ∧ a.readsEvaluator kind = true := by
  cases t with
  | param q =>
      unfold substitute at h
      split at h
      · rename_i hq
        exact ⟨by rw [hq], h⟩
      · cases h
  | member target m =>
      have hm : m.declaring.wrapper? = none := by simpa using (Bool.or_eq_false_iff.1 ht).2
      simp [substitute, readsEvaluator, isEvaluator_of_plain hm] at h
  | _ => simp [substitute, readsEvaluator] at h

end Tree

/-- A pass rebuilds an application, unless it is of a read of an evaluator it looks through. -/
theorem run_application {callee : Expr} {args : List Expr}
    (h : ∀ kind arg, pass = .inlining kind → args = [arg] → callee.readsEvaluator kind = false) :
    pass.run E (.invoke callee args) = (do
      return Tree.fill (Tree.invoke callee args).head
        (← (Tree.invoke callee args).children.mapM fun c => pass.run E c)) := by
  rw [DualPass.run_eq, ← rebuild_node]
  cases pass with
  | factories => rfl
  | combinators => rfl
  | inlining kind =>
      by_cases hread : ∃ receiver m arg, callee = .member receiver m ∧ args = [arg]
      · obtain ⟨receiver, m, arg, rfl, rfl⟩ := hread
        have hcallee := h kind arg rfl rfl
        refine (inliningRule_invoke kind receiver arg _ _ m).trans ?_
        split
        · rename_i hm
          have hknown : receiver.isKnown = false := by
            simpa [Tree.readsEvaluator, hm] using hcallee
          unfold evaluationRule
          rw [inlineCall_unknown hknown, pure_bind]
          rfl
        · rfl
      · show inliningRule E kind (.invoke (callee, _) (args.map _)) = _
        unfold inliningRule
        split <;> simp_all [Tree.node, Node.map]

/-! ## Passes over a body with a replaced parameter -/

/-- **A pass over a body with a replaced parameter rewrites the replacement**, if the body refers to
no dual and does not make an evaluation out of the replacement. -/
theorem run_substituted {p : Param} {a m t : Expr} (ht : t.referencesDuals = false)
    (hp : t.Undeclared p)
    (happlied : ∀ kind, pass = .inlining kind → a.readsEvaluator kind = true → t.Unapplied p)
    (ha : Exactly host I (fun E => pass.run E a) m) :
    Exactly host I (fun E => pass.run E (Tree.substitute p a t)) (Tree.substitute p m t) := by
  have hplain := Tree.anyNode_eq_false.1 ht
  clear ht
  induction t using Tree.binderwise with
  | param q =>
      unfold Tree.substitute
      split
      · exact ha
      · exact (Tree.settled_param q).exactly
  | lambda ps b ih =>
      have hb := List.mem_singleton.2 (rfl : b = b)
      have hps := hp.here ps b rfl
      rw [Tree.substitute_lambda, Tree.substitute_lambda, Tree.redeclare_of_not_mem hps,
        Tree.redeclare_of_not_mem hps]
      refine run_node rfl (fun c as h => by cases h) rfl (.cons ?_ .nil)
      exact ih (hp.child hb) (fun k hk hr => (happlied k hk hr).child hb) (hplain.child hb)
  | other t hparam hlambda ih =>
      have hhead : ∀ u, (Tree.substitute p u t).head = t.head := fun u =>
        Tree.substitute_head hparam hlambda
      have hparts : List.Forall₂ (fun c c' => Exactly host I (fun E => pass.run E c) c')
          (Tree.substitute p a t).children (Tree.substitute p m t).children := by
        rw [Tree.substitute_children hparam, Tree.substitute_children hparam,
          List.forall₂_map_left_iff, List.forall₂_map_right_iff]
        exact List.forall₂_same.2 fun c hc => ih c hc (hp.child hc)
          (fun k hk hr => (happlied k hk hr).child hc) (hplain.child hc)
      refine filled_exactly (fun E => ?_) ((hhead m).trans (hhead a).symm) hparts
      -- Only an application can become an evaluation of a dual by what is put in for the parameter.
      by_cases hinvoke : ∃ callee args, t = .invoke callee args
      · obtain ⟨callee, args, rfl⟩ := hinvoke
        refine run_application fun k arg hk hargs => ?_
        refine Bool.eq_false_iff.2 fun hread => ?_
        obtain ⟨rfl, hr⟩ := Tree.readsEvaluator_of_substitute
          (hplain.child (List.mem_cons_self ..)).here hread
        rw [Tree.substituteAll_eq_map] at hargs
        obtain ⟨x, rfl, -⟩ := List.map_eq_singleton_iff.1 hargs
        exact (happlied k hk hr).here x rfl
      · refine run_eq_fill ?_ fun receiver n arg h => ?_
        · rw [refersToDual_head (hhead a)]
          exact hplain.here
        · have hsame := (hhead a).symm
          rw [h] at hsame
          cases t <;> first | cases hsame | exact absurd ⟨_, _, rfl⟩ hinvoke

/-! ## The pipeline -/

/-- What each pass of the pipeline is given, and what the last one makes of it, in whatever state
with `I` they run. -/
structure Stages (host : Host) (I : Store → Prop) (given : DualPass → Expr) (result : Expr) : Prop where
  factories : Exactly host I (fun E => DualPass.factories.run E (given .factories))
    (given .combinators)
  combinators : Exactly host I (fun E => DualPass.combinators.run E (given .combinators))
    (given (.inlining .specification))
  specifications : Exactly host I
    (fun E => (DualPass.inlining .specification).run E (given (.inlining .specification)))
    (given (.inlining .projection))
  projections : Exactly host I
    (fun E => (DualPass.inlining .projection).run E (given (.inlining .projection))) result

/-- The pipeline makes of the first tree what the last pass makes of the last one. -/
theorem Stages.rewriteDefault {given : DualPass → Expr} {result : Expr}
    (h : Stages host I given result) :
    Exactly host I (fun E => rewriteDefault E (given .factories)) result :=
  (rewrite_exactly h.factories).bind <| (rewrite_exactly h.combinators).bind <|
    (rewrite_exactly h.specifications).bind <| (rewrite_exactly h.projections).bind <|
      Exactly.pure _

/-- A settled tree is what every pass is given. -/
theorem Stages.of_settled {t : Expr} (h : t.Settled) : Stages host I (fun _ => t) t :=
  ⟨h.exactly, h.exactly, h.exactly, h.exactly⟩

section Inlines

variable {u : Dual} {x : Param} {b : Expr} {given : DualPass → Expr} {result : Expr}

/-- A published form is the form. -/
theorem tree_of_published {l : Lam} (h : ∀ s, I s → TreePublished u.id l s) :
    Exactly host I (fun E => E.tree u) l := by
  have hfound : ∀ (n : Nat) (s : Store), I s → u.forceTree host (machine host n) s = .ok l s :=
    fun n s hs => publishOnce_found (h s hs)
  refine Exactly.step (y := fun E => u.forceTree host E) rfl (fun _ => machine_tree u)
    ⟨fun n => ⟨⟨fun s hs => ?_⟩, fun s a t hs ha => ?_⟩, fun s hs => ?_⟩
  · rw [Act.final_ok (hfound n s hs)]
    exact hs
  · rw [hfound n s hs] at ha
    cases ha
    rfl
  · exact ⟨s, ⟨0, fun n _ => hfound n s hs⟩, hs⟩

/-- A dual that is handed on becomes its form. -/
theorem unfolded_unreferenced {l : Lam} (hu : Exactly host I (fun E => E.tree u) l)
    (hb : l.body.referencesDuals = false) : Exactly host I (fun E => unfolded E u) l.tree := by
  refine hu.bind (f := fun E l => E.rewrite _ l.tree) ?_
  exact rewrite_exactly (Tree.settled_lambda hb).exactly

/-- The form of a dual is spliced and rewritten. -/
theorem spliced_substituted {a m : Expr} (hu : Exactly host I (fun E => E.tree u) ⟨[x], b⟩)
    (hb : b.referencesDuals = false) (hx : b.Undeclared x)
    (happlied : a.readsEvaluator u.kind = true → b.Unapplied x)
    (ha : Exactly host I (fun E => (DualPass.inlining u.kind).run E a) m) :
    Exactly host I (fun E => spliced E u a) (Tree.substitute x m b) := by
  refine hu.bind (f := fun E l => do E.rewrite _ (← Act.lift (l.applied a))) ?_
  refine (Exactly.lift (Lambda.applied_ok.2 ⟨x, rfl, rfl⟩)).bind (f := fun E t => E.rewrite _ t) ?_
  refine rewrite_exactly (run_substituted hb hx (fun kind hk hr => ?_) ha)
  cases hk
  exact happlied hr

/-- A pass that is not for a dual rewrites the argument where it stands. -/
theorem evaluation_exactly {a m : Expr} (hpass : pass ≠ .inlining u.kind) (byMethod : Bool)
    (ha : Exactly host I (fun E => pass.run E a) m) :
    Exactly host I (fun E => pass.run E (u.evaluation byMethod a)) (u.evaluation byMethod m) :=
  Exactly.congr (fun _ => run_evaluation_other hpass byMethod a)
    (ha.bind (f := fun _ t => pure (u.evaluation byMethod t)) (Exactly.pure _))

/-- The stages of the evaluation of a dual end in its body with the rewritten argument. -/
theorem Stages.evaluation (hu : Exactly host I (fun E => E.tree u) ⟨[x], b⟩)
    (hb : b.referencesDuals = false) (hx : b.Undeclared x) (ha : Stages host I given result)
    (happlied : ∀ kind, kind = u.kind ∨ kind = .projection →
      (given (.inlining kind)).readsEvaluator kind = true → b.Unapplied x) (byMethod : Bool) :
    ∃ given', given' .factories = u.evaluation byMethod (given .factories) ∧
      Stages host I given' (Tree.substitute x result b) := by
  have hfactories := evaluation_exactly (u := u) (by simp) byMethod ha.factories
  have hcombinators := evaluation_exactly (u := u) (by simp) byMethod ha.combinators
  have hspliced : ∀ {a m : Expr}, (a.readsEvaluator u.kind = true → b.Unapplied x) →
      Exactly host I (fun E => (DualPass.inlining u.kind).run E a) m →
        Exactly host I (fun E => (DualPass.inlining u.kind).run E (u.evaluation byMethod a))
          (Tree.substitute x m b) := fun h ha =>
    Exactly.congr (fun _ => run_evaluation_same byMethod _) (spliced_substituted hu hb hx h ha)
  cases hkind : u.kind with
  | projection =>
      rw [hkind] at hspliced happlied
      exact ⟨fun p => u.evaluation byMethod (given p), rfl, hfactories, hcombinators,
        evaluation_exactly (by simp [hkind]) byMethod ha.specifications,
        hspliced (happlied .projection (.inl rfl)) ha.projections⟩
  | specification =>
      rw [hkind] at hspliced happlied
      -- Inlining projections already works on the copies of the argument.
      have hcopies : Exactly host I (fun E => (DualPass.inlining .projection).run E
          (Tree.substitute x (given (.inlining .projection)) b)) (Tree.substitute x result b) :=
        run_substituted hb hx (fun k hk => by cases hk; exact happlied .projection (.inr rfl))
          ha.projections
      exact ⟨fun p => if p = .inlining .projection then Tree.substitute x (given p) b
          else u.evaluation byMethod (given p), rfl, hfactories, hcombinators,
        hspliced (happlied .specification (.inl rfl)) ha.specifications, hcopies⟩

/-- A tree that the pass of a dual unfolds, and no other pass changes, becomes the lambda of the
dual. -/
theorem Stages.unfolding {t : Expr} (hu : Exactly host I (fun E => E.tree u) ⟨[x], b⟩)
    (hb : b.referencesDuals = false)
    (hother : ∀ (E : Engine) (pass : DualPass), pass ≠ .inlining u.kind → pass.run E t = pure t)
    (hsame : ∀ E : Engine, (DualPass.inlining u.kind).run E t = unfolded E u) :
    ∃ given', given' .factories = t ∧ Stages host I given' (.lambda [x] b) := by
  have hkept : ∀ pass : DualPass, pass ≠ .inlining u.kind →
      Exactly host I (fun E => pass.run E t) t := fun pass hpass =>
    Exactly.congr (fun E => hother E pass hpass) (Exactly.pure t)
  have hunfolded : Exactly host I (fun E => (DualPass.inlining u.kind).run E t) (.lambda [x] b) :=
    Exactly.congr hsame (unfolded_unreferenced hu hb)
  cases hkind : u.kind with
  | projection =>
      rw [hkind] at hunfolded
      exact ⟨fun _ => t, rfl, hkept _ (by simp), hkept _ (by simp), hkept _ (by simp [hkind]),
        hunfolded⟩
  | specification =>
      rw [hkind] at hunfolded
      exact ⟨fun p => if p = .inlining .projection then .lambda [x] b else t, rfl,
        hkept _ (by simp), hkept _ (by simp), hunfolded, (Tree.settled_lambda hb).exactly⟩

/-- **The pipeline inlines a dual whose tree form refers to no dual.** Its evaluation on an argument
becomes the body with what the pipeline makes of the argument, by the evaluator as by the method, and
the dual itself, its evaluator and its conversion become its lambda. -/
theorem rewriteDefault_inlines (hu : Exactly host I (fun E => E.tree u) ⟨[x], b⟩)
    (hb : b.referencesDuals = false) (hx : b.Undeclared x) (ha : Stages host I given result)
    (happlied : ∀ kind, kind = u.kind ∨ kind = .projection →
      (given (.inlining kind)).readsEvaluator kind = true → b.Unapplied x) :
    Exactly host I (fun E => rewriteDefault E (given .factories)) result ∧
      Exactly host I (fun E => rewriteDefault E (u.invoked (given .factories)))
        (Tree.substitute x result b) ∧
      Exactly host I (fun E => rewriteDefault E (u.called (given .factories)))
        (Tree.substitute x result b) ∧
      ∀ t ∈ [u.literal, u.functionRead, u.converted],
        Exactly host I (fun E => rewriteDefault E t) (.lambda [x] b) := by
  have hevaluation : ∀ byMethod, Exactly host I
      (fun E => rewriteDefault E (u.evaluation byMethod (given .factories)))
      (Tree.substitute x result b) := by
    intro byMethod
    obtain ⟨given', hgiven, hstages⟩ := Stages.evaluation hu hb hx ha happlied byMethod
    rw [← hgiven]
    exact hstages.rewriteDefault
  have hunfolding : ∀ t : Expr,
      (∀ (E : Engine) (pass : DualPass), pass ≠ .inlining u.kind → pass.run E t = pure t) →
        (∀ E : Engine, (DualPass.inlining u.kind).run E t = unfolded E u) →
          Exactly host I (fun E => rewriteDefault E t) (.lambda [x] b) := by
    intro t hother hsame
    obtain ⟨given', rfl, hstages⟩ := Stages.unfolding hu hb hother hsame
    exact hstages.rewriteDefault
  refine ⟨ha.rewriteDefault, hevaluation false, hevaluation true, ?_⟩
  simp only [List.forall_mem_cons]
  exact ⟨hunfolding _ (fun E pass h => run_literal_other h) fun E => run_literal_same u,
    hunfolding _ (fun E pass h => run_functionRead_other h) fun E => run_functionRead_same u,
    hunfolding _ (fun E pass h => run_converted_other h) fun E => run_converted_same u,
    fun _ h => nomatch h⟩

end Inlines

/-! ## Bodies that apply the argument, and arguments that differ -/

namespace Spliced

/-- A parameter of type `int`. -/
def x : Param := ⟨0, "x", .int⟩

/-- A parameter that is a function. -/
def f : Param := ⟨1, "f", .func [.int] .int⟩

/-- `5`. -/
def five : Expr := Tree.constant (.int 5)

/-- `5 + 1`. -/
def sum : Expr := .operation .add five (Tree.constant (.int 1))

/-- `x => x + 1`. -/
def successor : Lam := ⟨[x], .operation .add (.param x) (Tree.constant (.int 1))⟩

/-- `x => x + x`. -/
def twice : Lam := ⟨[x], .operation .add (.param x) (.param x)⟩

/-- `f => f(5)`. -/
def atFive : Lam := ⟨[f], .invoke (.param f) [five]⟩

/-- A projection with this tree. -/
def dual (id : Nat) (source : Ty) (l : Lam) : Dual := ⟨id, .projection, source, .int, .lambda l⟩

/-- The store where the tree forms of three projections are published. -/
def store : Store :=
  { Store.initial with
    trees := (((∅ : Std.HashMap Nat Lam).insert 0 successor).insert 1 twice).insert 2 atFive }

/-- The tree forms of three projections are published. -/
def Held (s : Store) : Prop :=
  TreePublished 0 successor s ∧ TreePublished 1 twice s ∧ TreePublished 2 atFive s

theorem held : Held store := by
  simp [Held, TreePublished, store, Std.HashMap.getElem_insert]

theorem five_settled : five.Settled :=
  Tree.settled_of_unreferenced (Tree.anyNode_eq_false.2 (Tree.everywhere_leaf rfl rfl))

/-- The read of the evaluator of `x => x + 1`. -/
def evaluatorRead : Expr := .member successor.tree (Dual.evaluator .projection .int .int)

end Spliced

section Splicing

open Spliced

/-- `twice.evaluate(successor.evaluate(5))` becomes `(5 + 1) + (5 + 1)`. -/
theorem rewriteDefault_inlines_twice :
    (∃ s, Held s) ∧
      Exactly Registry.empty.host Held (fun E => rewriteDefault E
        ((dual 1 .int twice).invoked ((dual 0 .int successor).invoked five)))
        (.operation .add sum sum) := by
  have hsuccessor : Exactly Registry.empty.host Held (fun E => E.tree (dual 0 .int successor))
      ⟨[x], successor.body⟩ := tree_of_published fun s hs => hs.1
  have htwice : Exactly Registry.empty.host Held (fun E => E.tree (dual 1 .int twice))
      ⟨[x], twice.body⟩ := tree_of_published fun s hs => hs.2.1
  have hplain : ∀ r : Expr, r.refersToDual = false → r.children = [] →
      (Tree.operation .add (.param x) r).referencesDuals = false := fun r hr hleaf =>
    Tree.anyNode_eq_false.2 <|
      Tree.everywhere_pair rfl rfl (Tree.everywhere_leaf rfl rfl) (Tree.everywhere_leaf hr hleaf)
  have hundeclared : ∀ r : Expr, r.Undeclared x → (Tree.operation .add (.param x) r).Undeclared x :=
    fun r hr => Tree.everywhere_pair (fun ps b h => nomatch h) rfl
      (Tree.everywhere_leaf (fun ps b h => nomatch h) rfl) hr
  have hunapplied : twice.body.Unapplied x := Tree.everywhere_pair (fun arg h => nomatch h) rfl
    (Tree.everywhere_leaf (fun arg h => nomatch h) rfl) (Tree.everywhere_leaf (fun arg h => nomatch h) rfl)
  obtain ⟨given, hgiven, hstages⟩ := Stages.evaluation hsuccessor (hplain _ rfl rfl)
    (hundeclared _ (Tree.everywhere_leaf (fun ps b h => nomatch h) rfl)) (Stages.of_settled five_settled)
    (fun kind _ h => nomatch h) false
  have h := rewriteDefault_inlines htwice (hplain _ rfl rfl)
    (hundeclared _ (Tree.everywhere_leaf (fun ps b h => nomatch h) rfl)) hstages fun _ _ _ => hunapplied
  rw [hgiven] at h
  exact ⟨⟨_, held⟩, h.2.1⟩

/-- The condition on the argument is needed: where the body applies it and it is the read of an
evaluator, the evaluation made by splicing it in is inlined as well. -/
theorem rewriteDefault_applied_evaluator :
    (∃ s, Held s) ∧ atFive.body.referencesDuals = false ∧ atFive.body.Undeclared f ∧
      Exactly Registry.empty.host Held (fun E => E.tree (dual 2 f.ty atFive)) ⟨[f], atFive.body⟩ ∧
      Exactly Registry.empty.host Held (fun E => rewriteDefault E evaluatorRead) successor.tree ∧
      Exactly Registry.empty.host Held
        (fun E => rewriteDefault E ((dual 2 f.ty atFive).invoked evaluatorRead)) sum ∧
      sum ≠ Tree.substitute f successor.tree atFive.body := by
  have hatFive : Exactly Registry.empty.host Held (fun E => E.tree (dual 2 f.ty atFive))
      ⟨[f], atFive.body⟩ := tree_of_published fun s hs => hs.2.2
  have heverywhere : ∀ {q : Expr → Prop}, q atFive.body → q (.param f) → q five →
      atFive.body.Everywhere q := fun h hf hfive => Tree.everywhere_iff.2 ⟨h, fun c hc => by
    rcases List.mem_cons.1 hc with rfl | hc
    · exact Tree.everywhere_leaf hf rfl
    · rw [List.mem_singleton.1 hc]; exact Tree.everywhere_leaf hfive rfl⟩
  have hsum : sum.Settled := (Tree.inert_of_unreferenced (Tree.anyNode_eq_false.2
    (Tree.everywhere_pair rfl rfl (Tree.everywhere_leaf rfl rfl) (Tree.everywhere_leaf rfl rfl)))).settled
  -- Only inlining projections changes the read.
  have hread : Stages Registry.empty.host Held (fun _ => evaluatorRead) successor.tree :=
    ⟨Exactly.congr (fun _ => rfl) (Exactly.pure _), Exactly.congr (fun _ => rfl) (Exactly.pure _),
      Exactly.congr (fun _ => rfl) (Exactly.pure _), Exactly.congr (fun _ => rfl) (Exactly.pure _)⟩
  have hspliced : Exactly Registry.empty.host Held
      (fun E => spliced E (dual 2 f.ty atFive) evaluatorRead) sum := by
    refine hatFive.bind (f := fun E l => do E.rewrite _ (← Act.lift (l.applied evaluatorRead))) ?_
    refine (Exactly.lift rfl).bind (f := fun E t => E.rewrite _ t) ?_
    refine rewrite_exactly (Exactly.congr (y := fun E => E.rewrite (.inlining .projection) sum)
      (fun E => ?_) (rewrite_exactly hsum.exactly))
    show evaluationRule E .projection successor.tree five _ = _
    unfold evaluationRule inlineCall
    rw [show receiverLambda E .projection successor.tree = pure (some successor) from rfl, pure_bind]
    simp [show Act.lift (successor.applied five) = pure sum from rfl]
  have hinvoked : Stages Registry.empty.host Held
      (fun _ => (dual 2 f.ty atFive).invoked evaluatorRead) sum :=
    ⟨evaluation_exactly (by simp) false hread.factories,
      evaluation_exactly (by simp) false hread.combinators,
      evaluation_exactly (by simp [dual]) false hread.specifications,
      Exactly.congr (fun _ => run_invoked_same _ _) hspliced⟩
  refine ⟨⟨_, held⟩, Tree.anyNode_eq_false.2 (heverywhere rfl rfl rfl), ?_, hatFive,
    hread.rewriteDefault, hinvoked.rewriteDefault, fun h => nomatch h⟩
  exact heverywhere (fun ps b h => nomatch h) (fun ps b h => nomatch h) fun ps b h => nomatch h

end Splicing

namespace Copied

/-- A builder of `y => y`, with a new parameter every time. -/
def registry : Registry := ⟨#[.recipe (.lambda [.fresh "y" "y" .int] (.scoped "y"))], #[], #[]⟩

/-- The factory of this builder. -/
def factory : Factory := ⟨0, .projection, .tree 0, [], ⟨"n", .int⟩, none, .int, .int⟩

/-- A property that binds the factory whenever it is read. -/
def bound : Expr :=
  .staticMember ⟨⟨.nominal "P", "bound", .projection .int .int, .property, true⟩,
    .computed ⟨1, 0, .closure ⟨[], factory.bindExpr [Tree.constant (.int 5)]⟩ []⟩⟩

/-- `y => y`, over the parameter with this identity. -/
def same (id : Nat) : Lam := ⟨[⟨id, "y", .int⟩], .param ⟨id, "y", .int⟩⟩

/-- The projection of the property, from an identity on. -/
def made (id : Nat) : Dual :=
  ⟨id, .projection, .int, .int, .bound (.tree 0) [(⟨"n", .int⟩, .value (.int 5))]⟩

/-- The tree form is built when it is first asked for. -/
theorem tree_made (m : Nat) {s : Store} {id : Nat} (h : s.trees[id]? = none) :
    (machine registry.host (m + 3)).tree (made id) s =
      .ok (same s.nextId)
        ((Slot.tree (made id)).write (same s.nextId) { s with nextId := s.nextId + 1 }) := by
  have hbuilt : (made id).initialTree registry.host (machine registry.host (m + 2)) s =
      .ok (same s.nextId) { s with nextId := s.nextId + 1 } := rfl
  exact publishOnce_first h hbuilt h

/-- Every read makes a projection. -/
theorem fold_bound (m : Nat) (s : Store) :
    tryEvaluate (machine registry.host (m + 2)) bound s =
      .ok (some (.dual (made s.nextId))) { s with nextId := s.nextId + 1 } := rfl

/-- The store after the property has been unfolded. -/
def after (s : Store) : Store :=
  (Slot.tree (made s.nextId)).write (same (s.nextId + 1)) { s with nextId := s.nextId + 2 }

/-- The property unfolds to a lambda with a new parameter. -/
theorem run_bound (m : Nat) {s : Store} (h : s.trees[s.nextId]? = none) :
    (DualPass.inlining .projection).run (machine registry.host (m + 3)) bound s =
      .ok (same (s.nextId + 1)).tree (after s) := by
  have hfold : foldDual (machine registry.host (m + 3)) .projection bound s =
      .ok (some (same (s.nextId + 1))) (after s) := by
    refine (Act.bind_ok (fold_bound (m + 1) s)).trans ?_
    exact (Act.bind_ok (tree_made m (s := { s with nextId := s.nextId + 1 }) h)).trans rfl
  exact (Act.bind_ok hfold).trans rfl

/-- A parameter of any type. -/
def x : Param := ⟨2, "x", .any⟩

/-- `x => x == x`. -/
def equal : Lam := ⟨[x], .operation .equal (.param x) (.param x)⟩

/-- The projection `x => x == x`. -/
def dual : Dual := ⟨3, .projection, .any, .bool, .lambda equal⟩

/-- The store where the tree form of this projection is published. -/
def store : Store := { Store.initial with nextId := 4, trees := (∅ : Std.HashMap Nat Lam).insert 3 equal }

end Copied

section Copying

open Copied

/-- That the passes make the same of the argument in every state is needed: of a property that binds
a factory they make a lambda with a new parameter every time, so the copies of the argument differ. -/
theorem rewriteDefault_copies_apart :
    (machine registry.host 4).tree dual store = .ok equal store ∧
      equal.body.referencesDuals = false ∧ equal.body.Undeclared x ∧
      (∃ t, rewriteDefault (machine registry.host 5) bound store = .ok (same 5).tree t) ∧
      (∃ t, rewriteDefault (machine registry.host 5) (dual.invoked bound) store =
        .ok (.operation .equal (same 5).tree (same 7).tree) t) ∧
      ∀ result, Tree.operation .equal (same 5).tree (same 7).tree ≠
        Tree.substitute x result equal.body := by
  have hfound : (machine registry.host 4).tree dual store = .ok equal store :=
    publishOnce_found (by simp [Slot.tree, store, dual])
  have hempty : store.trees[store.nextId]? = none := by simp [store]
  have hfirst := run_bound 0 hempty
  have hsecond := run_bound 0 (s := after store) <| by
    refine (trees_write (made 4) (same 5) { store with nextId := 6 } 6).trans ?_
    simp [made, store]
  have hbody : (machine registry.host 4).rewrite (.inlining .projection)
      (.operation .equal bound bound) store =
        .ok (.operation .equal (same 5).tree (same 7).tree) (after (after store)) :=
    (Act.bind_ok ((Act.bind_ok hfirst).trans ((Act.bind_ok hsecond).trans rfl))).trans rfl
  have hinvoked : (machine registry.host 5).rewrite (.inlining .projection) (dual.invoked bound) store =
      .ok (.operation .equal (same 5).tree (same 7).tree) (after (after store)) := by
    show (DualPass.inlining dual.kind).run _ _ _ = _
    rw [run_invoked_same]
    exact (Act.bind_ok hfound).trans hbody
  have hkept : ∀ pass : DualPass, pass ≠ .inlining .projection →
      (machine registry.host 5).rewrite pass bound store = .ok bound store ∧
        (machine registry.host 5).rewrite pass (dual.invoked bound) store =
          .ok (dual.invoked bound) store := by
    intro pass hpass
    match pass, hpass with
    | .factories, _ | .combinators, _ | .inlining .specification, _ => exact ⟨rfl, rfl⟩
  -- Only the last pass changes the property and the evaluation.
  have hpipeline : ∀ {t u : Expr} {s : Store}, (∀ pass : DualPass, pass ≠ .inlining .projection →
      (machine registry.host 5).rewrite pass t store = .ok t store) →
        (machine registry.host 5).rewrite (.inlining .projection) t store = .ok u s →
          rewriteDefault (machine registry.host 5) t store = .ok u s := by
    intro t u s hother hlast
    rw [rewriteDefault_eq, DualPass.all, runPasses_cons, Act.bind_ok (hother _ (by simp)),
      runPasses_cons, Act.bind_ok (hother _ (by simp)), runPasses_cons,
      Act.bind_ok (hother _ (by simp)), runPasses_cons, Act.bind_ok hlast]
    rfl
  have hproperty := hpipeline (fun pass h => (hkept pass h).1) (run_bound 1 hempty)
  have hevaluation := hpipeline (fun pass h => (hkept pass h).2) hinvoked
  refine ⟨hfound, Tree.anyNode_eq_false.2 ?_, ?_, ⟨_, hproperty⟩, ⟨_, hevaluation⟩, fun result h => ?_⟩
  · exact Tree.everywhere_pair rfl rfl (Tree.everywhere_leaf rfl rfl) (Tree.everywhere_leaf rfl rfl)
  · exact Tree.everywhere_pair (fun ps b h => nomatch h) rfl (Tree.everywhere_leaf (fun ps b h => nomatch h) rfl)
      (Tree.everywhere_leaf (fun ps b h => nomatch h) rfl)
  · obtain ⟨_, hl, hr, _⟩ := Tree.binary.inj h
    have hsame : (same 5).tree = (same 7).tree := hl.trans hr.symm
    exact absurd hsame (fun h => by cases h)

end Copying

end DualForm
