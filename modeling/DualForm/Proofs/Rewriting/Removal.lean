import DualForm.Proofs.Rewriting.Standing

/-!
# The pipeline leaves no reference behind

* `Lambda.Guarded` — the lambda neither returns its parameter nor applies it to itself.
* `Refers R guarded reads t` — a tree without references, but for trees that stand for duals (`R`):
  bare, converted, with their evaluator read, or evaluated on one argument. `reads` says that the tree
  is such a read. With `guarded`, a dual is evaluated on such a read only if its lambda is guarded.
* `Refers.After` — what a pass makes of such trees: no read comes up where there was none, if
  `guarded`.

Principal results: `Refers.combine` — combining specifications leaves literals and lambdas;
`Refers.inline` — inlining the duals of a kind removes that kind; `Refers.unreferenced` — without
duals left, no reference is left; `rewriteDefault_denotes` — the pipeline puts the lambda of a tree that
stands for a dual in its place.
-/

namespace DualForm

variable {form : Dual → Lam} {D : Dual → Prop} {K : DualKind → Prop} {kind : DualKind}
  {R : Bool → DualKind → Lam → Expr → Prop} {guarded : Prop} {b : Bool} {l : Lam} {p : Param}
  {t : Expr}

/-- The body is not just the parameter, and the parameter is nowhere applied to itself alone. -/
def Lambda.Guarded (l : Lam) : Prop :=
  ∀ p ∈ l.params, l.body ≠ .param p ∧ l.body.Everywhere fun u => u ≠ .invoke (.param p) [.param p]

/-- The only references are those of trees that stand for duals. -/
inductive Refers (R : Bool → DualKind → Lam → Expr → Prop) (guarded : Prop) : Bool → Expr → Prop
  | plain {t : Expr} (reads : Expr → Bool) : t.refersToDual = false →
      (∀ c ∈ t.children, Refers R guarded (reads c) c) →
      (∀ callee arg, t = .invoke callee [arg] → reads callee = false) → Refers R guarded false t
  | standing {converted : Bool} {kind : DualKind} {l : Lam} {t : Expr} : R converted kind l t →
      l.tree.referencesDuals = false → Refers R guarded false t
  | read {kind : DualKind} {source result : Ty} {l : Lam} {t : Expr} : R false kind l t →
      l.tree.referencesDuals = false →
      Refers R guarded true (.member t (Dual.evaluator kind source result))
  | evaluated {kind : DualKind} {source result : Ty} (byMethod : Bool) {reads : Bool} {l : Lam}
      {t arg : Expr} : R false kind l t → Refers R guarded reads arg →
      (guarded → reads = true → l.Guarded) →
      Refers R guarded false (Tree.evaluation kind source result byMethod t arg)

namespace Refers

/-- A node without references over such trees, where no read is applied. -/
theorem node (ht : t.refersToDual = false) (hparts : ∀ c ∈ t.children, ∃ b, Refers R guarded b c)
    (hcallee : ∀ callee arg, t = .invoke callee [arg] → Refers R guarded false callee) :
    Refers R guarded false t := by
  classical
  refine .plain (fun c => decide (¬ Refers R guarded false c)) ht (fun c hc => ?_) fun callee arg h => ?_
  · obtain ⟨b, hb⟩ := hparts c hc
    by_cases hfalse : Refers R guarded false c
    · simp [hfalse]
    · cases b with
      | false => exact absurd hb hfalse
      | true => simpa [hfalse] using hb
  · simpa using hcallee callee arg h

/-- A read is the evaluator of something that stands for a dual. -/
theorem of_read (h : Refers R guarded true t) : ∃ kind source result l r, R false kind l r ∧
    l.tree.referencesDuals = false ∧ t = .member r (Dual.evaluator kind source result) := by
  generalize hb : true = b at h
  cases h with
  | read hr hl => exact ⟨_, _, _, _, _, hr, hl, rfl⟩
  | _ => cases hb

/-- A node without references over such trees. Where reads may come up, one that is applied to one
argument is an evaluation. -/
theorem node_of (ht : t.refersToDual = false) (hparts : ∀ c ∈ t.children, ∃ b, Refers R guarded b c)
    (hcallee : ∀ callee arg, t = .invoke callee [arg] → guarded → Refers R guarded false callee) :
    Refers R guarded false t := by
  by_cases hread : ∃ callee arg, t = .invoke callee [arg] ∧ ¬ Refers R guarded false callee
  · obtain ⟨callee, arg, rfl, hcalled⟩ := hread
    obtain ⟨b, hb⟩ := hparts callee (List.mem_cons_self ..)
    obtain ⟨reads, harg⟩ := hparts arg (by simp [Tree.children, Tree.node, Node.children])
    cases b with
    | false => exact absurd hb hcalled
    | true =>
        obtain ⟨kind, source, result, l, r, hr, _, rfl⟩ := hb.of_read
        exact .evaluated false hr harg fun hguarded =>
          absurd (hcallee _ _ rfl hguarded) hcalled
  · refine node ht hparts fun callee arg h => ?_
    by_contra hcalled
    exact hread ⟨callee, arg, h, hcalled⟩

/-- A tree without references. -/
theorem of_unreferenced (h : t.referencesDuals = false) : Refers R guarded false t := by
  replace h := Tree.anyNode_eq_false.1 h
  induction t using Tree.childwise with
  | step t ih =>
      refine node h.here (fun c hc => ⟨false, ih c hc (h.child hc)⟩) fun callee arg ht => ?_
      subst ht
      exact ih callee (List.mem_cons_self ..) (h.child (List.mem_cons_self ..))

/-- **Where nothing stands for a dual there is no reference.** -/
theorem unreferenced (h : Refers R guarded b t) (hnone : ∀ converted kind l u, ¬ R converted kind l u) :
    t.referencesDuals = false := by
  refine Tree.anyNode_eq_false.2 ?_
  induction h with
  | plain _ ht _ _ ih => exact Tree.everywhere_iff.2 ⟨ht, ih⟩
  | standing hr => exact (hnone _ _ _ _ hr).elim
  | read hr => exact (hnone _ _ _ _ hr).elim
  | evaluated _ hr => exact (hnone _ _ _ _ hr).elim

/-- What a pass makes of such a tree: where there was no read, none comes up if `guarded`. -/
def After (R : Bool → DualKind → Lam → Expr → Prop) (guarded : Prop) (b : Bool) (t : Expr) : Prop :=
  ∃ b', Refers R guarded b' t ∧ (guarded → b = false → b' = false)

theorem after (h : Refers R guarded b t) : After R guarded b t := ⟨b, h, fun _ h => h⟩

theorem After.plain (h : After R guarded false t) (hguarded : guarded) : Refers R guarded false t := by
  obtain ⟨b', hb, hsame⟩ := h
  rwa [hsame hguarded rfl] at hb

theorem After.any (h : After R guarded b t) : ∃ b, Refers R guarded b t := by
  obtain ⟨b', hb, _⟩ := h
  exact ⟨b', hb⟩

theorem After.weaken (h : After R guarded b t) : After R guarded true t := by
  obtain ⟨b', hb⟩ := h.any
  exact ⟨b', hb, fun _ h => by cases h⟩

end Refers

/-! ## Passes over evaluations that are not for them -/

section Other

variable {pass : DualPass} {E : Engine} (source result : Ty)

/-- A pass over the read of an evaluator of another kind. -/
theorem run_evaluator_other (h : pass ≠ .inlining kind) (receiver : Expr) :
    pass.run E (.member receiver (Dual.evaluator kind source result)) = (do
      return .member (← pass.run E receiver) (Dual.evaluator kind source result)) := by
  have hrebuild : Visited.rebuild
      (.member (receiver, pass.run E receiver) (Dual.evaluator kind source result)) = (do
        return .member (← pass.run E receiver) (Dual.evaluator kind source result)) := by
    simp [Visited.rebuild, Node.traverse, Node.tree]
  rw [DualPass.run_eq]
  cases pass with
  | factories => exact hrebuild
  | combinators => exact hrebuild
  | inlining other =>
      have hkind : kind ≠ other := fun hk => h (by rw [hk])
      have hevaluator : isEvaluator other (Dual.evaluator kind source result) = false := by
        rw [isEvaluator_evaluator, decide_eq_false hkind]
      exact (inliningRule_member other receiver _ hevaluator).trans hrebuild

/-- A pass over the evaluation of a receiver of another kind. -/
theorem run_evaluation_aside (h : pass ≠ .inlining kind) (byMethod : Bool) (receiver arg : Expr) :
    pass.run E (Tree.evaluation kind source result byMethod receiver arg) = (do
      let r ← pass.run E receiver
      return Tree.evaluation kind source result byMethod r (← pass.run E arg)) := by
  rw [DualPass.run_eq]
  cases byMethod with
  | true =>
      have hrebuild : Visited.rebuild (.call (receiver, pass.run E receiver)
          (Dual.evaluateMethod kind source result) [(arg, pass.run E arg)]) = (do
            let r ← pass.run E receiver
            return Tree.evaluation kind source result true r (← pass.run E arg)) := by
        simp [Visited.rebuild, Node.traverse, Node.tree, Tree.evaluation]
      cases pass with
      | factories =>
          show factoryRule E (.call (receiver, _) _ [(arg, _)]) = _
          unfold factoryRule
          dsimp only
          rw [isBinding_evaluateMethod]
          exact hrebuild
      | combinators => exact hrebuild
      | inlining other =>
          have hkind : kind ≠ other := fun hk => h (by rw [hk])
          refine (inliningRule_call other receiver arg _ _ _).trans ?_
          rw [isEvaluateMethod_evaluateMethod, decide_eq_false hkind]
          exact hrebuild
  | false =>
      have hrebuild : Visited.rebuild
          (.invoke (.member receiver (Dual.evaluator kind source result),
            pass.run E (.member receiver (Dual.evaluator kind source result)))
            [(arg, pass.run E arg)]) = (do
              let r ← pass.run E receiver
              return Tree.evaluation kind source result false r (← pass.run E arg)) := by
        rw [run_evaluator_other source result h]
        simp [Visited.rebuild, Node.traverse, Node.tree, Tree.evaluation]
      cases pass with
      | factories => exact hrebuild
      | combinators => exact hrebuild
      | inlining other =>
          have hkind : kind ≠ other := fun hk => h (by rw [hk])
          refine (inliningRule_invoke other receiver arg _ _ _).trans ?_
          rw [isEvaluator_evaluator, decide_eq_false hkind]
          exact hrebuild

/-- The pass for the kind of an evaluation inlines it or puts it back. -/
theorem run_evaluation_for (kind : DualKind) (byMethod : Bool) (receiver arg : Expr) :
    ∃ n, (DualPass.inlining kind).run E (Tree.evaluation kind source result byMethod receiver arg) =
      evaluationRule E kind receiver arg n := by
  cases byMethod with
  | true =>
      refine ⟨_, (inliningRule_call kind receiver arg _ _ _).trans (if_pos ?_)⟩
      rw [isEvaluateMethod_evaluateMethod, decide_eq_true rfl]
  | false =>
      refine ⟨_, (inliningRule_invoke kind receiver arg _ _ _).trans (if_pos ?_)⟩
      rw [isEvaluator_evaluator, decide_eq_true rfl]

end Other

/-- The read of a member below such a tree, unless it is the evaluator of a dual. -/
theorem Refers.member_plain (hR : ∀ converted kind l u, R converted kind l u →
    ∀ receiver m, u ≠ .member receiver m) {receiver : Expr} {m : Member Getter}
    (h : Refers R guarded false (.member receiver m)) : m.declaring.wrapper? = none := by
  generalize ht : Tree.member receiver m = t at h
  generalize hb : false = b at h
  cases h with
  | plain _ h =>
      subst ht
      simpa using (Bool.or_eq_false_iff.1 h).2
  | standing h => exact absurd ht.symm (hR _ _ _ _ h _ _)
  | read => cases hb
  | evaluated byMethod => cases byMethod <;> cases ht

section Passes

variable {host : Host} {I : Store → Prop} {N : Nat} {pass : DualPass}

/-- A pass over a node without references, from what it makes of the direct subtrees. -/
theorem node_completes (ht : t.refersToDual = false)
    (hmember : ∀ receiver m arg, t = .invoke (.member receiver m) [arg] →
      m.declaring.wrapper? = none)
    (hparts : ∀ c ∈ t.children,
      Completes host I N guarded (fun u => ∃ b, Refers R guarded b u) fun E => pass.run E c)
    (hcallee : ∀ callee arg, t = .invoke callee [arg] →
      Completes host I N guarded (Refers.After R guarded false) fun E => pass.run E callee) :
    Completes host I N guarded (Refers R guarded false) fun E => pass.run E t := by
  refine Completes.congr (fun _ => run_eq_fill ht hmember) ?_
  let post : Expr → Expr → Prop := fun c u => (∃ b, Refers R guarded b u) ∧
    ∀ arg, t = .invoke c [arg] → guarded → Refers R guarded false u
  have hall : ∀ c ∈ t.children, Completes host I N guarded (post c) fun E => pass.run E c := by
    intro c hc
    by_cases h : ∃ arg, t = .invoke c [arg]
    · obtain ⟨arg, h⟩ := h
      exact (hcallee c arg h).imp fun u hu => ⟨hu.any, fun _ _ => hu.plain⟩
    · exact (hparts c hc).imp fun u hu => ⟨hu, fun arg harg => absurd ⟨arg, harg⟩ h⟩
  refine (Completes.mapM_mem (f := fun E c => pass.run E c) t.children hall).bind fun cs hcs => ?_
  obtain ⟨hhead, hchildren⟩ := Tree.fill_spec hcs.length_eq.symm
  refine Completes.pure (Refers.node_of (by rw [refersToDual_head hhead]; exact ht) ?_ ?_)
  · rw [hchildren]
    exact forall_right hcs fun _ _ _ h => h.1
  · intro callee arg heq hguarded
    rw [heq] at hhead hchildren
    obtain ⟨c, a, rfl⟩ : ∃ c a, t = .invoke c [a] := by
      cases t with
      | invoke c as =>
          obtain ⟨a, rfl⟩ : ∃ a, as = [a] := List.length_eq_one_iff.1 (by
            have := congrArg (fun h => h.children.length) hhead
            simpa [Tree.head, Tree.node, Node.map, Node.children] using this.symm)
          exact ⟨c, a, rfl⟩
      | _ => cases hhead
    obtain rfl : [callee, arg] = cs := hchildren
    cases hcs with
    | cons hc _ => exact hc.2 a rfl hguarded

/-! ## Binding factories and combining specifications -/

/-- A pass that does not inline leaves a tree as it is where it has nothing to do on the spot. -/
theorem run_clear {E : Engine} (hpass : ∀ kind, pass ≠ .inlining kind) (h : t.Clear pass) :
    pass.run E t = pure t := by
  induction t using Tree.childwise with
  | step t ih =>
      have hgiven := Visited.given_node t fun u => pass.run E u
      have hparts : ∀ c ∈ (t.node.map fun u => (u, pass.run E u)).children, c.2 = pure c.1 := by
        intro c hc
        rw [Node.children_map] at hc
        obtain ⟨u, hu, rfl⟩ := List.mem_map.1 hc
        exact ih u hu (h.child hu)
      have hacts := h.here
      rw [← acts_map (fun u => (u, pass.run E u))] at hacts
      rw [DualPass.run_eq]
      cases pass with
      | factories => exact (factoryRule_settled hparts hacts).trans (by rw [hgiven])
      | combinators => exact (combinatorRule_settled hparts hacts).trans (by rw [hgiven])
      | inlining kind => exact absurd rfl (hpass kind)

theorem Denotes.not_member {converted : Bool} (h : Denotes form D converted kind l t)
    (receiver : Expr) (m : Member Getter) : t ≠ .member receiver m := by
  cases h <;> intro h <;> cases h

theorem Denotes.clear_factories {converted : Bool} (h : Denotes form D converted kind l t) :
    t.Clear .factories := by
  induction h with
  | literal => exact Tree.everywhere_leaf rfl rfl
  | combined _ _ _ _ ihl ihr =>
      refine Tree.everywhere_pair rfl rfl ?_ ?_
      · exact ihl
      · exact ihr
  | negated _ _ _ ih | converted _ ih =>
      refine Tree.everywhere_single rfl rfl ?_
      exact ih

theorem Refers.clear_factories (h : Refers (Denotes form D) guarded b t) : t.Clear .factories := by
  induction h with
  | plain _ ht _ _ ih => exact Tree.everywhere_iff.2 ⟨Tree.acts_of_unreferenced ht, ih⟩
  | standing h => exact h.clear_factories
  | read h =>
      refine Tree.everywhere_single rfl rfl ?_
      exact h.clear_factories
  | @evaluated kind source result byMethod _ _ receiver arg h _ _ ih =>
      have hread : (Tree.member receiver (Dual.evaluator kind source result)).Clear .factories := by
        refine Tree.everywhere_single rfl rfl ?_
        exact h.clear_factories
      cases byMethod with
      | true =>
          refine Tree.everywhere_pair (isBinding_evaluateMethod ..) rfl ?_ ?_
          · exact h.clear_factories
          · exact ih
      | false =>
          refine Tree.everywhere_pair rfl rfl ?_ ?_
          · exact hread
          · exact ih

/-- **Combining specifications leaves literals and lambdas,** and reads where there were reads. -/
theorem Refers.combine (hforms : Forms host I form D) (h : Refers (Denotes form D) guarded b t) :
    Completes host I N guarded (Refers (Known form D fun _ => True) guarded b)
      fun E => DualPass.combinators.run E t := by
  induction h with
  | @plain t reads ht hparts hcallee ih =>
      refine node_completes ht (fun receiver m arg h => ?_) (fun c hc => ?_) fun callee arg h => ?_
      · have hread := hparts (.member receiver m) (by rw [h]; exact List.mem_cons_self ..)
        rw [hcallee _ _ h] at hread
        exact hread.member_plain fun _ _ _ _ h => h.not_member
      · exact (ih c hc).imp fun u hu => ⟨_, hu⟩
      · have hfun := ih callee (by rw [h]; exact List.mem_cons_self ..)
        rw [hcallee _ _ h] at hfun
        exact hfun.imp fun u hu => hu.after
  | standing h hl => exact (h.run hforms).imp fun u hu => .standing hu hl
  | read h hl =>
      refine Completes.congr (fun E => run_evaluator_other _ _ (by simp) _) ?_
      exact (h.run hforms).bind fun u hu => Completes.pure (.read hu hl)
  | evaluated byMethod h _ hguard ih =>
      refine Completes.congr (fun E => run_evaluation_aside _ _ (by simp) _ _ _) ?_
      exact (h.run hforms).bind fun u hu => ih.bind fun a ha =>
        Completes.pure (.evaluated byMethod hu ha hguard)

/-! ## Inlining -/

/-- The kinds that are left when one of them is inlined. -/
def without (K : DualKind → Prop) (kind other : DualKind) : Prop := K other ∧ other ≠ kind

section Inlining

variable {k : DualKind} {a : Expr} {source result : Ty}

/-- What stands for a dual, inlined. -/
theorem standing_inlined (hforms : Forms host I form D) {converted : Bool}
    (h : Known form D K converted k l t) (hl : l.tree.referencesDuals = false) :
    Completes host I N guarded (Refers (Known form D (without K kind)) guarded false)
      fun E => (DualPass.inlining kind).run E t := by
  by_cases hk : k = kind
  · subst hk
    refine (h.run_same hforms).imp fun u hu => ?_
    subst hu
    exact .of_unreferenced hl
  · refine Completes.congr (fun E => h.run_other fun hpass => hk (DualPass.inlining.inj hpass).symm) ?_
    exact Completes.pure (.standing (h.restrict ⟨h.kept, hk⟩) hl)

/-- The read of an evaluator, inlined. -/
theorem read_inlined (hforms : Forms host I form D) (h : Known form D K false k l t)
    (hl : l.tree.referencesDuals = false) :
    Completes host I N guarded (Refers.After (Known form D (without K kind)) guarded true)
      fun E => (DualPass.inlining kind).run E (.member t (Dual.evaluator k source result)) := by
  by_cases hk : k = kind
  · subst hk
    have hrun : ∀ E : Engine, (DualPass.inlining k).run E (.member t (Dual.evaluator k source result)) =
        (DualPass.inlining k).run E t := by
      intro E
      show (do
        if isEvaluator k (Dual.evaluator k source result) then
          if ← isReceiver E t then return ← (DualPass.inlining k).run E t
        _) = _
      rw [isEvaluator_evaluator, decide_eq_true rfl, if_pos rfl, h.isReceiver]
      simp
    refine Completes.congr hrun ((h.run_same hforms).imp fun u hu => ?_)
    subst hu
    exact ⟨false, .of_unreferenced hl, fun _ _ => rfl⟩
  · have hpass : DualPass.inlining kind ≠ .inlining k := fun h => hk (DualPass.inlining.inj h).symm
    refine Completes.congr (fun E => run_evaluator_other _ _ hpass _) ?_
    refine Completes.congr (fun E => by rw [h.run_other hpass, pure_bind]) (Completes.pure ?_)
    exact (Refers.read (h.restrict ⟨h.kept, hk⟩) hl).after

/-- An evaluation, inlined, from what becomes of the argument and of the body it is put in. -/
theorem evaluation_inlined (hforms : Forms host I form D) (byMethod : Bool)
    (h : Known form D K false k l t) (hp : l.params = [p]) (hguard : guarded → b = true → l.Guarded)
    (harg : Completes host I N guarded (Refers.After (Known form D (without K kind)) guarded b)
      fun E => (DualPass.inlining kind).run E a)
    (hbody : k = kind → Completes host I N guarded
      (Refers.After (Known form D (without K kind)) guarded false)
        fun E => E.rewrite (.inlining kind) (Tree.substitute p a l.body)) :
    Completes host I N guarded (Refers.After (Known form D (without K kind)) guarded false)
      fun E => (DualPass.inlining kind).run E (Tree.evaluation k source result byMethod t a) := by
  by_cases hk : k = kind
  · have hcall : Completes host I N guarded
        (fun o => ∃ u, o = some u ∧ Refers.After (Known form D (without K kind)) guarded false u)
          fun E => inlineCall E kind t a := by
      subst hk
      refine (h.lambda_behind hforms).bind fun o ho => ?_
      subst ho
      refine (Completes.lift (Lambda.applied_ok.2 ⟨p, hp, rfl⟩) rfl).bind fun _ hbody' => ?_
      subst hbody'
      exact (hbody rfl).bind fun u hu => Completes.pure ⟨u, rfl, hu⟩
    subst hk
    choose n hn using fun E : Engine => run_evaluation_for (E := E) source result k byMethod t a
    refine Completes.congr hn (hcall.bind fun o ho => ?_)
    obtain ⟨u, rfl, hu⟩ := ho
    exact Completes.pure hu
  · have hpass : DualPass.inlining kind ≠ .inlining k := fun h => hk (DualPass.inlining.inj h).symm
    refine Completes.congr (fun E => run_evaluation_aside _ _ hpass _ _ _) ?_
    refine Completes.congr (fun E => by rw [h.run_other hpass, pure_bind]) ?_
    refine harg.bind fun u hu => Completes.pure ?_
    obtain ⟨b', hb', hsame⟩ := hu
    refine (Refers.evaluated byMethod (h.restrict ⟨h.kept, hk⟩) hb' fun hg hread => ?_).after
    cases b with
    | true => exact hguard hg rfl
    | false => rw [hsame hg rfl] at hread; cases hread

/-! ## What is put in the place of a parameter

The body an argument is put in refers to duals by reads of the parameter at most, so the references
in the result are those of the argument. -/

/-- A member read after a substitution was one before, or stands in the place of the parameter. -/
theorem member_of_substitute (ht : t.Everywhere fun u => u.refersToDual = true → u = .param p)
    {receiver : Expr} {m : Member Getter} (h : Tree.substitute p a t = .member receiver m) :
    t = .param p ∨ m.declaring.wrapper? = none := by
  cases t with
  | param q =>
      unfold Tree.substitute at h
      split at h
      · rename_i hq
        exact .inl (by rw [hq])
      · cases h
  | member target n =>
      have hn : (Tree.member target n : Expr).refersToDual = false :=
        Bool.eq_false_iff.2 fun href => by cases ht.here href
      obtain rfl : n = m := (Tree.member.inj h).2
      exact .inr (by simpa using (Bool.or_eq_false_iff.1 hn).2)
  | _ => cases h

/-- An application after a substitution was one before. -/
theorem invoke_of_substitute (hp : ∀ q, t ≠ .param q) {callee arg : Expr}
    (h : Tree.substitute p a t = .invoke callee [arg]) : ∃ c x, t = .invoke c [x] ∧
      callee = Tree.substitute p a c ∧ arg = Tree.substitute p a x := by
  cases t with
  | param q => exact absurd rfl (hp q)
  | invoke c xs =>
      obtain ⟨hc, hxs⟩ := Tree.invoke.inj h
      rw [Tree.substituteAll_eq_map] at hxs
      obtain ⟨x, rfl, hx⟩ := List.map_eq_singleton_iff.1 hxs
      exact ⟨c, x, rfl, hc.symm, hx.symm⟩
  | _ => cases h

/-- Another parameter than the one replaced. -/
theorem Refers.other_param {q : Param} (hq : q ≠ p)
    (h : (Tree.param q : Expr).refersToDual = true → (Tree.param q : Expr) = .param p) :
    Refers R guarded false (.param q) := by
  have hplain : (Tree.param q : Expr).refersToDual = false :=
    Bool.eq_false_iff.2 fun href => hq (Tree.param.inj (h href))
  refine Refers.node hplain (fun c hc => ?_) fun callee arg h => ?_
  · cases hc
  · cases h

/-- A node of the body that is no parameter refers to no dual, whatever is put in below it. -/
theorem refersToDual_substitute_plain (hp : ∀ q, t ≠ .param q)
    (h : t.refersToDual = true → t = .param p) : (Tree.substitute p a t).refersToDual = false := by
  rw [refersToDual_substitute (hp p)]
  exact Bool.eq_false_iff.2 fun href => hp p (h href)

/-- An argument that is no read of an evaluator, put in a body. -/
theorem inserted_completes
    (ha : Completes host I N guarded (Refers.After R guarded false) fun E => pass.run E a)
    (hmember : ∀ receiver m, a = .member receiver m → m.declaring.wrapper? = none)
    (ht : t.Everywhere fun u => u.refersToDual = true → u = .param p) :
    Completes host I N guarded (Refers.After R guarded false)
      fun E => pass.run E (Tree.substitute p a t) := by
  induction t using Tree.childwise with
  | step t ih =>
      by_cases hparam : ∃ q, t = .param q
      · obtain ⟨q, rfl⟩ := hparam
        unfold Tree.substitute
        split
        · exact ha
        · rename_i hq
          exact Completes.congr (fun E => (Tree.settled_param q).run)
            (Completes.pure (Refers.other_param hq ht.here).after)
      · have hp : ∀ q, t ≠ .param q := fun q h => hparam ⟨q, h⟩
        refine (node_completes (refersToDual_substitute_plain hp ht.here) (fun receiver m arg h => ?_) (fun c hc => ?_)
          fun callee arg h => ?_).imp fun u hu => hu.after
        · obtain ⟨c, x, rfl, hc, _⟩ := invoke_of_substitute hp h
          rcases member_of_substitute (ht.child (List.mem_cons_self ..)) hc.symm with rfl | hm
          · refine hmember receiver m ?_
            rw [hc]
            simp [Tree.substitute]
          · exact hm
        · rw [Tree.substitute_children hp] at hc
          obtain ⟨u, hu, rfl⟩ := List.mem_map.1 hc
          exact (ih u hu (ht.child hu)).imp fun w hw => hw.any
        · obtain ⟨c, x, rfl, rfl, _⟩ := invoke_of_substitute hp h
          exact ih c (List.mem_cons_self ..) (ht.child (List.mem_cons_self ..))

/-- The read of an evaluator, put in a body that does not apply it to itself. -/
theorem read_inserted_completes (hforms : Forms host I form D) (h : Known form D K false k l a)
    (hl : l.tree.referencesDuals = false)
    (ht : t.Everywhere fun u => u.refersToDual = true → u = .param p)
    (hself : t.Everywhere fun u => u ≠ .invoke (.param p) [.param p]) :
    Completes host I N guarded
      (fun u => Refers.After (Known form D (without K kind)) guarded true u ∧
        (t ≠ .param p → Refers.After (Known form D (without K kind)) guarded false u))
      fun E => (DualPass.inlining kind).run E
        (Tree.substitute p (.member a (Dual.evaluator k source result)) t) := by
  obtain ⟨q, hq⟩ := h.tame hforms
  have hread : Completes host I N guarded (Refers.After (Known form D (without K kind)) guarded true)
      fun E => (DualPass.inlining kind).run E (.member a (Dual.evaluator k source result)) :=
    read_inlined hforms h hl
  induction t using Tree.childwise with
  | step t ih =>
      by_cases hparam : ∃ r, t = .param r
      · obtain ⟨r, rfl⟩ := hparam
        unfold Tree.substitute
        split
        · rename_i hr
          exact hread.imp fun u hu => ⟨hu, fun hne => absurd (by rw [hr]) hne⟩
        · rename_i hr
          have hafter : Refers.After (Known form D (without K kind)) guarded false (.param r) :=
            (Refers.other_param hr ht.here).after
          refine Completes.congr (fun E => (Tree.settled_param r).run) (Completes.pure ?_)
          exact ⟨hafter.weaken, fun _ => hafter⟩
      have hp : ∀ q, t ≠ .param q := fun q h => hparam ⟨q, h⟩
      have hfalse : ∀ u, Refers.After (Known form D (without K kind)) guarded false u →
          Refers.After (Known form D (without K kind)) guarded true u ∧
            (t ≠ .param p → Refers.After (Known form D (without K kind)) guarded false u) :=
        fun u hu => ⟨hu.weaken, fun _ => hu⟩
      by_cases happlied : ∃ x, t = .invoke (.param p) [x]
      · obtain ⟨x, rfl⟩ := happlied
        have hx : x ≠ .param p := fun h => hself.here (by rw [h])
        have hmem : x ∈ (Tree.invoke (.param p) [x] : Expr).children := by
          simp [Tree.children, Tree.node, Node.children]
        have harg := (ih x hmem (ht.child hmem) (hself.child hmem)).imp fun u hu => hu.2 hx
        have happly : Tree.substitute p (.member a (Dual.evaluator k source result))
            (.invoke (.param p) [x]) = Tree.evaluation k source result false a
              (Tree.substitute p (.member a (Dual.evaluator k source result)) x) := by
          simp [Tree.substitute, Tree.substituteAll, Tree.evaluation]
        rw [happly]
        refine (evaluation_inlined hforms false h hq.single (fun _ h => by cases h) harg fun _ => ?_).imp
          hfalse
        refine rewrite_completes (inserted_completes harg (fun receiver m h => ?_) hq.references)
        exact (member_of_substitute (ht.child hmem) h).resolve_left hx
      · refine (node_completes (refersToDual_substitute_plain hp ht.here) (fun receiver m arg h => ?_) (fun c hc => ?_)
          fun callee arg h => ?_).imp fun u hu => hfalse u hu.after
        · obtain ⟨c, x, rfl, hc, _⟩ := invoke_of_substitute hp h
          refine (member_of_substitute (ht.child (List.mem_cons_self ..)) hc.symm).resolve_left ?_
          rintro rfl
          exact happlied ⟨x, rfl⟩
        · rw [Tree.substitute_children hp] at hc
          obtain ⟨u, hu, rfl⟩ := List.mem_map.1 hc
          exact (ih u hu (ht.child hu) (hself.child hu)).imp fun w hw => hw.1.any
        · obtain ⟨c, x, rfl, rfl, _⟩ := invoke_of_substitute hp h
          have hmem : c ∈ (Tree.invoke c [x] : Expr).children := List.mem_cons_self ..
          refine (ih c hmem (ht.child hmem) (hself.child hmem)).imp fun u hu => hu.2 ?_
          rintro rfl
          exact happlied ⟨x, rfl⟩

/-- Where evaluations may come up again, any argument may be put in a body. -/
theorem Refers.substitute (hunguarded : ¬ guarded) (ha : Refers R guarded b a)
    (ht : t.Everywhere fun u => u.refersToDual = true → u = .param p) :
    ∃ b', Refers R guarded b' (Tree.substitute p a t) := by
  induction t using Tree.childwise with
  | step t ih =>
      by_cases hparam : ∃ q, t = .param q
      · obtain ⟨q, rfl⟩ := hparam
        unfold Tree.substitute
        split
        · exact ⟨b, ha⟩
        · rename_i hq
          exact ⟨false, Refers.other_param hq ht.here⟩
      · have hp : ∀ q, t ≠ .param q := fun q h => hparam ⟨q, h⟩
        refine ⟨false, Refers.node_of (refersToDual_substitute_plain hp ht.here) (fun c hc => ?_)
          fun _ _ _ hg => absurd hg hunguarded⟩
        rw [Tree.substitute_children hp] at hc
        obtain ⟨u, hu, rfl⟩ := List.mem_map.1 hc
        exact ih u hu (ht.child hu)

/-- Inlining the duals of a kind, from what it does with fewer nested steps where evaluations may
come up again. -/
theorem Refers.inline_of_less (hforms : Forms host I form D)
    (hless : ¬ guarded → ∀ n < N, ∀ b t, Refers (Known form D K) guarded b t →
      ((DualPass.inlining kind).run (machine host n) t).Delivers I
        (Refers.After (Known form D (without K kind)) guarded b))
    (h : Refers (Known form D K) guarded b t) :
    Completes host I N guarded (Refers.After (Known form D (without K kind)) guarded b)
      fun E => (DualPass.inlining kind).run E t := by
  have hnot : ∀ converted other l u, Known form D K converted other l u →
      ∀ receiver m, u ≠ .member receiver m := fun _ _ _ _ h => h.not_member
  induction h with
  | @plain t reads ht hparts hcallee ih =>
      refine (node_completes ht (fun receiver m arg h => ?_) (fun c hc => ?_)
        fun callee arg h => ?_).imp fun u hu => hu.after
      · have hread := hparts (.member receiver m) (by rw [h]; exact List.mem_cons_self ..)
        rw [hcallee _ _ h] at hread
        exact hread.member_plain hnot
      · exact (ih c hc).imp fun u hu => hu.any
      · have hfun := ih callee (by rw [h]; exact List.mem_cons_self ..)
        rwa [hcallee _ _ h] at hfun
  | standing h hl => exact (standing_inlined hforms h hl).imp fun u hu => hu.after
  | read h hl => exact read_inlined hforms h hl
  | @evaluated k source result byMethod reads l t arg h harg hguard ih =>
      obtain ⟨p, hp⟩ := h.tame hforms
      refine evaluation_inlined hforms byMethod h hp.single hguard ih fun hk => ?_
      by_cases hg : guarded
      · refine rewrite_completes ?_
        cases reads with
        | false =>
            refine inserted_completes ih (fun receiver m heq => ?_) hp.references
            rw [heq] at harg
            exact harg.member_plain hnot
        | true =>
            obtain ⟨k', source', result', l', r, hr, hl', rfl⟩ := harg.of_read
            obtain ⟨hne, hself⟩ := hguard hg rfl p (by rw [hp.single]; exact List.mem_singleton.2 rfl)
            exact (read_inserted_completes hforms hr hl' hp.references hself).imp fun u hu => hu.2 hne
      · refine Completes.step (y := fun E => (DualPass.inlining kind).run E _) rfl (fun _ => rfl)
          (fun n hn => ?_) fun hg' => absurd hg' hg
        obtain ⟨b', hb'⟩ := harg.substitute hg hp.references
        refine (hless hg n hn b' _ hb').imp fun u hu => ?_
        obtain ⟨b, hb⟩ := hu.any
        exact ⟨b, hb, fun hg' => absurd hg' hg⟩

/-- **Inlining the duals of a kind leaves none of that kind.** -/
theorem Refers.inline (hforms : Forms host I form D) (h : Refers (Known form D K) guarded b t) :
    Completes host I N guarded (Refers.After (Known form D (without K kind)) guarded b)
      fun E => (DualPass.inlining kind).run E t := by
  induction N using Nat.strongRecOn generalizing b t with
  | ind N ih =>
      exact h.inline_of_less hforms fun _ n hn b t ht => (ih n hn ht).delivers n (Nat.le_refl n)

end Inlining

/-! ## The pipeline -/

/-- **The pipeline never fails on such trees, and leaves no reference.** It ends if all evaluations
on reads of evaluators are guarded. -/
theorem rewriteDefault_completes (hforms : Forms host I form D)
    (h : Refers (Denotes form D) guarded b t) (N : Nat) :
    Completes host I N guarded (fun u => u.referencesDuals = false) fun E => rewriteDefault E t := by
  have hfactories : Completes host I N guarded (· = t) fun E => E.rewrite .factories t :=
    rewrite_completes (Completes.congr (fun _ => run_clear (by simp) h.clear_factories)
      (Completes.pure rfl))
  refine hfactories.bind fun _ heq => ?_
  subst heq
  refine (rewrite_completes (h.combine hforms)).bind fun u₁ h₁ => ?_
  have hinline : ∀ {K : DualKind → Prop} (kind : DualKind) {b : Bool} {u : Expr},
      Refers (Known form D K) guarded b u → Completes host I N guarded
        (Refers.After (Known form D (without K kind)) guarded b)
          fun E => E.rewrite (.inlining kind) u := fun _ _ _ hu =>
    rewrite_completes (hu.inline hforms)
  refine (hinline .specification h₁).bind fun u₂ h₂ => ?_
  obtain ⟨b₂, h₂⟩ := h₂.any
  refine (hinline .projection h₂).bind fun u₃ h₃ => ?_
  obtain ⟨b₃, h₃⟩ := h₃.any
  refine Completes.pure (h₃.unreferenced fun converted kind l u hu => ?_)
  obtain ⟨⟨_, hspecification⟩, hprojection⟩ := hu.kept
  cases kind with
  | specification => exact hspecification rfl
  | projection => exact hprojection rfl

/-- A tree that stands for a dual and stands alone becomes the lambda of the dual, with whatever that
refers to. -/
theorem rewriteDefault_denotes {converted : Bool} (hforms : Forms host I form D)
    (h : Denotes form D converted kind l t) :
    Completes host I N guarded (· = l.tree) fun E => rewriteDefault E t := by
  obtain ⟨p, hp⟩ := h.tame hforms.single hforms.unreferenced
  have hstays : ∀ other, Completes host I N guarded (· = l.tree)
      fun E => E.rewrite (.inlining other) l.tree := fun _ => rewrite_settled hp.inert.settled
  have hfactories : Completes host I N guarded (· = t) fun E => E.rewrite .factories t :=
    rewrite_completes (Completes.congr (fun _ => run_clear (by simp) h.clear_factories)
      (Completes.pure rfl))
  refine hfactories.bind fun _ heq => ?_
  subst heq
  refine (rewrite_completes (h.run hforms)).bind fun u hu => ?_
  have hinlined : Completes host I N guarded (· = l.tree) fun E => E.rewrite (.inlining kind) u :=
    rewrite_completes (hu.run_same hforms)
  cases kind with
  | specification =>
      refine hinlined.bind fun _ heq => ?_
      subst heq
      refine (hstays .projection).bind fun _ heq => ?_
      subst heq
      exact Completes.pure rfl
  | projection =>
      have hother : Completes host I N guarded (· = u)
          fun E => E.rewrite (.inlining .specification) u :=
        rewrite_completes (Completes.congr (fun _ => hu.run_other (by simp)) (Completes.pure rfl))
      refine hother.bind fun _ heq => ?_
      subst heq
      refine hinlined.bind fun _ heq => ?_
      subst heq
      exact Completes.pure rfl

end Passes

end DualForm
