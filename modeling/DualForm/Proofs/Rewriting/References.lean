import DualForm.Proofs.Composition
import DualForm.Proofs.Rewriting.Calls
import DualForm.Proofs.Tree.Substitution

/-!
# Trees whose only references are evaluations of duals

* `Calls D t` — the only references to duals in `t` are evaluations of literal duals with `D`.
* `Tree.isPlain` — whether the top node refers to no dual and declares no parameter for one.
* `DualPass.leaves pass D` — the duals with `D` that the pass does not inline.

Principal results: `Calls.unreferenced` — a tree without such evaluations holds no references;
`Calls.substitute`; `run_calls` — what one pass does to such trees, given what the engine answers;
`rewriteLambda_calls` — the pipeline removes all references.
-/

namespace DualForm

open Act (Ensures)

variable {D : Dual → Prop} {pass : DualPass} {E : Engine} {I : Store → Prop}

/-- The top node refers to no dual, and declares no parameter for one. -/
def Tree.isPlain (t : Expr) : Bool :=
  !t.refersToDual &&
    match t with
    | .lambda params _ => params.all fun p => p.ty.wrapper?.isNone
    | _ => true

/-- The only references to duals are evaluations of literal duals with `D`. -/
inductive Calls (D : Dual → Prop) : Expr → Prop
  | plain {t : Expr} : t.isPlain = true → (∀ c ∈ t.children, Calls D c) → Calls D t
  | invoked {d : Dual} {arg : Expr} : D d → Calls D arg → Calls D (d.invoked arg)
  | called {d : Dual} {arg : Expr} : D d → Calls D arg → Calls D (d.called arg)

/-! ## Plain nodes -/

theorem refersToDual_of_isPlain {t : Expr} (h : t.isPlain = true) : t.refersToDual = false := by
  unfold Tree.isPlain at h
  rw [Bool.and_eq_true] at h
  simpa using h.1

theorem isPlain_eq (t : Expr) : t.isPlain = ((t.head.map fun _ => (default : Expr)).tree).isPlain := by
  cases t <;> rfl

theorem isPlain_head {t u : Expr} (h : t.head = u.head) : t.isPlain = u.isPlain := by
  rw [isPlain_eq t, isPlain_eq u, h]

theorem isPlain_param {p : Param} : (Tree.param p : Expr).isPlain = true ↔ p.ty.wrapper? = none := by
  simp [Tree.isPlain, Tree.refersToDual]

theorem isPlain_lambda {ps : List Param} {b : Expr} :
    (Tree.lambda ps b).isPlain = true ↔ ∀ p ∈ ps, p.ty.wrapper? = none := by
  simp [Tree.isPlain, Tree.refersToDual]

theorem literal_referenced (d : Dual) : d.literal.refersToDual = true := by
  show (Ty.ofDual d.kind d.source d.result).wrapper?.isSome = true
  rw [ofDual_wrapper]
  rfl

theorem invoked_referenced (d : Dual) (arg : Expr) :
    ¬ (d.invoked arg).Everywhere fun u => u.refersToDual = false := by
  intro h
  have hread := h.child (c := d.functionRead) (List.mem_cons_self ..)
  have hd := (hread.child (c := d.literal) (List.mem_singleton.2 rfl)).here
  rw [literal_referenced d] at hd
  cases hd

theorem called_referenced (d : Dual) (arg : Expr) :
    ¬ (d.called arg).Everywhere fun u => u.refersToDual = false := by
  intro h
  have hd := (h.child (c := d.literal) (List.mem_cons_self ..)).here
  rw [literal_referenced d] at hd
  cases hd

namespace Calls

theorem mono {D' : Dual → Prop} {t : Expr} (h : Calls D t) (hD : ∀ d, D d → D' d) : Calls D' t := by
  induction h with
  | plain ht _ ih => exact .plain ht ih
  | invoked hd _ ih => exact .invoked (hD _ hd) ih
  | called hd _ ih => exact .called (hD _ hd) ih

theorem of_none {t : Expr} (h : Calls (fun _ => False) t) : Calls D t := h.mono fun _ hd => hd.elim

/-- Without evaluations of duals there are no references. -/
theorem unreferenced {t : Expr} (h : Calls (fun _ => False) t) : t.referencesDuals = false := by
  refine Tree.anyNode_eq_false.2 ?_
  induction h with
  | plain ht _ ih => exact Tree.everywhere_iff.2 ⟨refersToDual_of_isPlain ht, ih⟩
  | invoked hd => exact hd.elim
  | called hd => exact hd.elim

/-- Without references there are no evaluations of duals. -/
theorem none_of_unreferenced {t : Expr} (h : Calls D t) (hr : t.referencesDuals = false) :
    Calls (fun _ => False) t := by
  replace hr := Tree.anyNode_eq_false.1 hr
  induction h with
  | plain ht _ ih => exact .plain ht fun c hc => ih c hc (hr.child hc)
  | invoked => exact (invoked_referenced _ _ hr).elim
  | called => exact (called_referenced _ _ hr).elim

/-- A member read in such a tree reads no evaluator. -/
theorem member_plain {receiver : Expr} {m : Member Getter} (h : Calls D (.member receiver m)) :
    m.declaring.wrapper? = none := by
  generalize ht : Tree.member receiver m = t at h
  cases h with
  | plain h _ =>
      subst ht
      simpa using (Bool.or_eq_false_iff.1 (refersToDual_of_isPlain h)).2
  | invoked => cases ht
  | called => cases ht

theorem param_iff {p : Param} : Calls D (.param p) ↔ p.ty.wrapper? = none := by
  constructor
  · intro h
    generalize ht : (Tree.param p : Expr) = t at h
    cases h with
    | plain h _ => subst ht; exact isPlain_param.1 h
    | invoked => cases ht
    | called => cases ht
  · intro h
    exact .plain (isPlain_param.2 h) fun c hc => by cases hc

theorem lambda_iff {ps : List Param} {b : Expr} :
    Calls D (.lambda ps b) ↔ (∀ p ∈ ps, p.ty.wrapper? = none) ∧ Calls D b := by
  constructor
  · intro h
    generalize ht : Tree.lambda ps b = t at h
    cases h with
    | plain h hc =>
        subst ht
        exact ⟨isPlain_lambda.1 h, hc b (List.mem_singleton.2 rfl)⟩
    | invoked => cases ht
    | called => cases ht
  · rintro ⟨hps, hb⟩
    exact .plain (isPlain_lambda.2 hps) (List.forall_mem_singleton.2 hb)

theorem operation {op : BinaryOp} {a b : Expr} (ha : Calls D a) (hb : Calls D b) :
    Calls D (.operation op a b) :=
  .plain rfl (List.forall_mem_cons.2 ⟨ha, List.forall_mem_singleton.2 hb⟩)

theorem complement {a : Expr} (ha : Calls D a) : Calls D a.complement :=
  .plain rfl (List.forall_mem_singleton.2 ha)

/-- Lambdas that take over the replacement as their parameter stay plain. -/
theorem redeclare_plain {p : Param} {arg : Expr} (ha : Calls D arg) {ps : List Param}
    (hps : ∀ q ∈ ps, q.ty.wrapper? = none) :
    ∀ q ∈ Tree.redeclare p arg ps, q.ty.wrapper? = none := by
  unfold Tree.redeclare
  split
  · intro q hq
    obtain ⟨r, hr, rfl⟩ := List.mem_map.1 hq
    split
    · exact param_iff.1 ha
    · exact hps r hr
  · exact hps

theorem substitute {p : Param} {arg t : Expr} (ht : Calls D t) (ha : Calls D arg) :
    Calls D (Tree.substitute p arg t) := by
  induction ht with
  | @plain t ht hc ih =>
      by_cases hp : ∃ q, t = .param q
      · obtain ⟨q, rfl⟩ := hp
        unfold Tree.substitute
        split
        · exact ha
        · exact .plain ht hc
      by_cases hl : ∃ ps b, t = .lambda ps b
      · obtain ⟨ps, b, rfl⟩ := hl
        exact lambda_iff.2 ⟨redeclare_plain ha (isPlain_lambda.1 ht), ih b (List.mem_singleton.2 rfl)⟩
      have hparam : ∀ q, t ≠ .param q := fun q h => hp ⟨q, h⟩
      have hhead := Tree.substitute_head (q := p) (a := arg) hparam fun ps b h => hl ⟨ps, b, h⟩
      refine .plain (by rw [isPlain_head hhead]; exact ht) fun c hc => ?_
      rw [Tree.substitute_children hparam] at hc
      obtain ⟨u, hu, rfl⟩ := List.mem_map.1 hc
      exact ih u hu
  | invoked hd _ ih => exact .invoked hd ih
  | called hd _ ih => exact .called hd ih

end Calls

/-! ## References after a substitution -/

theorem refersToDual_substitute {p : Param} {arg t : Expr} (hp : t ≠ .param p) :
    (Tree.substitute p arg t).refersToDual = t.refersToDual := by
  cases t with
  | param q =>
      have hq : q ≠ p := fun h => hp (congrArg _ h)
      rw [show Tree.substitute p arg (.param q) = .param q from if_neg hq]
  | _ => rfl

/-- **A substitution brings in the references of the replacement exactly if the parameter is
read.** -/
theorem substitute_unreferenced {p : Param} {arg t : Expr} (ht : Calls D t) :
    (Tree.substitute p arg t).referencesDuals = false ↔
      t.referencesDuals = false ∧ (arg.referencesDuals = false ∨ t.anyNode (·.reads p) = false) := by
  unfold Tree.referencesDuals
  simp only [Tree.anyNode_eq_false]
  induction ht with
  | @plain t hplain hc ih =>
      have hrefers := refersToDual_of_isPlain hplain
      by_cases hp : ∃ q, t = .param q
      · obtain ⟨q, rfl⟩ := hp
        have hleaf : ∀ post : Expr → Prop, (Tree.param q : Expr).Everywhere post ↔ post (.param q) :=
          fun post => Tree.everywhere_iff.trans ⟨fun h => h.1, fun h => ⟨h, fun c hc => by cases hc⟩⟩
        rw [hleaf, hleaf]
        unfold Tree.substitute
        split
        · rename_i hq
          subst hq
          simp [hrefers, Tree.reads]
        · rename_i hq
          rw [hleaf]
          simp [hrefers, Tree.reads, hq]
      · have hparam : ∀ q, t ≠ .param q := fun q h => hp ⟨q, h⟩
        have hreads : t.reads p = false := by
          cases t <;> first | rfl | exact absurd rfl (hparam _)
        rw [Tree.everywhere_iff (t := Tree.substitute p arg t), Tree.everywhere_iff (t := t),
          Tree.everywhere_iff (t := t), refersToDual_substitute (hparam p),
          Tree.substitute_children hparam]
        simp only [List.forall_mem_map, hrefers, hreads, true_and]
        constructor
        · intro h
          refine ⟨fun c hmem => ((ih c hmem).1 (h c hmem)).1, ?_⟩
          by_cases ha : arg.Everywhere fun u => u.refersToDual = false
          · exact .inl ha
          · exact .inr fun c hmem => (((ih c hmem).1 (h c hmem)).2).resolve_left ha
        · rintro ⟨h, hor⟩ c hmem
          exact (ih c hmem).2 ⟨h c hmem, hor.imp_right fun hnone => hnone c hmem⟩
  | @invoked d _ _ _ _ =>
      constructor
      · intro h; exact (invoked_referenced d _ h).elim
      · rintro ⟨h, _⟩; exact (invoked_referenced d _ h).elim
  | @called d _ _ _ _ =>
      constructor
      · intro h; exact (called_referenced d _ h).elim
      · rintro ⟨h, _⟩; exact (called_referenced d _ h).elim

/-! ## One pass -/

/-- The duals that the pass does not inline. -/
def DualPass.leaves (pass : DualPass) (D : Dual → Prop) (d : Dual) : Prop :=
  D d ∧ pass ≠ .inlining d.kind

/-- **A pass over a tree that only evaluates duals:** the evaluations it is for are gone, and
nothing new comes in, as long as the tree forms of those duals hold no references. -/
theorem run_calls {t : Expr} (ht : Calls D t)
    (htree : ∀ d, D d → Ensures I (fun l => Calls (fun _ => False) l.tree) (E.tree d))
    (hrewrite : ∀ u, Calls D u → Ensures I (Calls (pass.leaves D)) (E.rewrite pass u)) :
    Ensures I (Calls (pass.leaves D)) (pass.run E t) := by
  have hspliced : ∀ d arg, D d → Calls D arg → pass = .inlining d.kind →
      Ensures I (Calls (pass.leaves D)) (spliced E d arg) := by
    rintro d arg hd ha rfl
    refine (htree d hd).bind fun l hl => ?_
    refine (Ensures.lift fun b hb => hb).bind fun b hb => hrewrite b ?_
    obtain ⟨p, _, rfl⟩ := Lambda.applied_ok.1 hb
    exact (Calls.lambda_iff.1 hl).2.of_none.substitute ha
  induction ht with
  | @plain t ht hc ih =>
      rw [run_plain (refersToDual_of_isPlain ht) fun receiver m args h =>
        (hc (.member receiver m) (by rw [h]; exact List.mem_cons_self ..)).member_plain]
      refine (rebuild_results (Ensures.logic I) (R := fun _ u => Calls (pass.leaves D) u) ?_).imp ?_
      · intro c hmem
        rw [Node.children_map] at hmem
        obtain ⟨u, hu, rfl⟩ := List.mem_map.1 hmem
        exact ih u hu
      · rintro u ⟨hhead, hchildren⟩
        rw [Visited.given_node] at hhead
        exact .plain (by rw [isPlain_head hhead]; exact ht)
          (forall_right hchildren fun _ _ _ h => h)
  | @invoked d arg hd ha ih =>
      by_cases hpass : pass = .inlining d.kind
      · have := hspliced d arg hd ha hpass
        rwa [hpass, run_invoked_same, ← hpass]
      · rw [run_invoked_other hpass]
        exact ih.bind fun u hu => Ensures.pure (.invoked ⟨hd, hpass⟩ hu)
  | @called d arg hd ha ih =>
      by_cases hpass : pass = .inlining d.kind
      · have := hspliced d arg hd ha hpass
        rwa [hpass, run_called_same, ← hpass]
      · rw [run_called_other hpass]
        exact ih.bind fun u hu => Ensures.pure (.called ⟨hd, hpass⟩ hu)

/-- **The pipeline over a lambda that only evaluates duals removes all references.** -/
theorem rewriteLambda_calls {l : Lam} (hl : Calls D l.tree)
    (hrewrite : ∀ pass D' u, (∀ d, D' d → D d) → Calls D' u →
      Ensures I (Calls (pass.leaves D')) (E.rewrite pass u)) :
    Ensures I (fun k : Lam => Calls (fun _ => False) k.tree) (rewriteLambda E l) := by
  have hpasses : Ensures I (Calls fun _ => False) (rewriteDefault E l.tree) := by
    refine (hrewrite .factories D _ (fun _ h => h) hl).bind fun a ha => ?_
    refine (hrewrite .combinators _ _ (fun _ h => h.1) ha).bind fun b hb => ?_
    refine (hrewrite (.inlining .specification) _ _ (fun _ h => h.1.1) hb).bind fun c hc => ?_
    refine (hrewrite (.inlining .projection) _ _ (fun _ h => h.1.1.1) hc).bind fun e he => ?_
    refine Ensures.pure (he.mono fun d hd => ?_)
    cases hk : d.kind with
    | specification => exact hd.1.2 (by rw [hk])
    | projection => exact hd.2 (by rw [hk])
  refine hpasses.bind fun t ht => Ensures.lift fun k hk => ?_
  unfold Tree.expectLambda at hk
  cases t <;> cases hk
  exact ht

end DualForm
