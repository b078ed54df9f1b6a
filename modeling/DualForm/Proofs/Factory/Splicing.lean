import DualForm.Proofs.Factory.Building

/-!
# Tree forms of bound duals

* `Binds host V a arg` — `arg` is what is bound for the argument `a` of a call in a tree: its value if
  it folds, and otherwise an accessor over the tree.
* `Spliced host V formals as b` — what stands at the places of a template in the tree form, where `b`
  has been put in the place of the parameter: the arguments themselves, or reads of their values.

Principal results: `spliced_filled` — binding the accessors puts the arguments in the places of their
reads; `tree_triple` — the tree form of a dual bound in this way.
-/

namespace DualForm

open Template (Place Stands)

variable {host : Host} {V : Vocabulary} {ends : Prop} {err P : Store → Prop} {build : BuilderId}
  {formals : List FormalParam} {template a b t u : Expr} {as : List Expr} {args : List Argument}
  {p q : Param} {d : Dual}

/-- What is bound for an argument: its value, if it folds, and otherwise an accessor over the tree. -/
inductive Binds (host : Host) (V : Vocabulary) : Expr → Argument → Prop
  | value {a : Expr} {w : Value} : a.folds = true → V.data w →
      (∀ σ, Recurs host (fun E => evaluate E σ a) w) → Binds host V a (.value w)
  | deferred {a : Expr} (f : Func) : a.folds = false →
      Binds host V a (.deferred ⟨f, some ⟨[], a⟩, none⟩)

/-- What stands at the places of a template in the tree form. -/
inductive Spliced (host : Host) (V : Vocabulary) (formals : List FormalParam) (as : List Expr)
    (b : Expr) : Param → Expr → Prop
  | own : Spliced host V formals as b Template.own b
  | deferred {index : Nat} {a : Expr} : as[index]? = some a →
      Spliced host V formals as b (Template.argument index) a
  | value {index : Nat} {a : Expr} {formal : FormalParam} {w : Value} (id : Nat) :
      as[index]? = some a → formals[index]? = some formal → V.data w →
      (∀ σ, Recurs host (fun E => evaluate E σ a) w) →
      Spliced host V formals as b (Template.argument index) (Captured.read ⟨formal, .value w⟩ id)

/-! ## Binding accessors -/

/-- A tree with the closure reads of one parameter replaced, if its argument has a tree. -/
def Argument.splicedIn (t : Expr) : FormalParam × Argument → Expr
  | (formal, .deferred ⟨_, some l, _⟩) => Tree.bindArgument formal l.body t
  | _ => t

theorem splice_binds {E : Engine} {formal : FormalParam} {arg : Argument} (h : Binds host V a arg) :
    Bindings.splice host E t (formal, arg) = pure (Argument.splicedIn t (formal, arg)) := by
  cases h <;> rfl

theorem foldlM_splice {E : Engine} : ∀ {bs : Bindings} (t : Expr),
    (∀ x ∈ bs, ∃ a, Binds host V a x.2) →
      bs.foldlM (Bindings.splice host E) t = pure (bs.foldl Argument.splicedIn t)
  | [], _, _ => rfl
  | (formal, arg) :: bs, t, h => by
      obtain ⟨a, ha⟩ := h _ (List.mem_cons_self ..)
      rw [List.foldlM_cons, splice_binds ha, pure_bind, List.foldl_cons]
      exact foldlM_splice _ fun x hx => h x (List.mem_cons_of_mem _ hx)

theorem splicedIn_param (x : FormalParam × Argument) :
    Argument.splicedIn (.param q) x = .param q := by
  obtain ⟨formal, arg⟩ := x
  rcases arg with _ | ⟨f, _ | l, d⟩ <;> rfl

theorem foldl_splicedIn_param (bs : Bindings) : bs.foldl Argument.splicedIn (.param q) = .param q := by
  induction bs with
  | nil => rfl
  | cons x bs ih => rw [List.foldl_cons, splicedIn_param, ih]

/-- A tree without reads of the parameters stays. -/
theorem foldl_splicedIn_over (ha : a.Over V formals p) : ∀ {bs : Bindings},
    (∀ x ∈ bs, x.1 ∈ formals) → bs.foldl Argument.splicedIn a = a
  | [], _ => rfl
  | (formal, arg) :: bs, h => by
      have hsame : Argument.splicedIn a (formal, arg) = a := by
        rcases arg with _ | ⟨f, _ | l, d⟩
        · rfl
        · rfl
        · exact Tree.bindArgument_apart (ha.uncaptured (h _ (List.mem_cons_self ..)))
      rw [List.foldl_cons, hsame]
      exact foldl_splicedIn_over ha fun x hx => h x (List.mem_cons_of_mem _ hx)

/-- A read of another parameter stays. -/
theorem foldl_splicedIn_read_other {c : Captured} (id : Nat) : ∀ {bs : Bindings},
    (∀ x ∈ bs, c.formal.name ≠ x.1.name) → bs.foldl Argument.splicedIn (c.read id) = c.read id
  | [], _ => rfl
  | (formal, arg) :: bs, h => by
      have hsame : Argument.splicedIn (c.read id) (formal, arg) = c.read id := by
        rcases arg with _ | ⟨f, _ | l, d⟩
        · rfl
        · rfl
        · exact c.bindArgument_read_other id (h _ (List.mem_cons_self ..))
      rw [List.foldl_cons, hsame]
      exact foldl_splicedIn_read_other id fun x hx => h x (List.mem_cons_of_mem _ hx)

/-- A read of a parameter becomes the argument, if that is deferred. -/
theorem foldl_splicedIn_read {formal : FormalParam} {arg : Argument} (ha : a.Over V formals p)
    (harg : Binds host V a arg) (id : Nat) : ∀ {bs : Bindings},
    (bs.map fun x => x.1.name).Nodup → (∀ x ∈ bs, x.1 ∈ formals) → (formal, arg) ∈ bs →
      bs.foldl Argument.splicedIn ((arg.captured formal).read id) =
        if a.folds then (arg.captured formal).read id else a
  | x :: bs, hnames, hformals, hmem => by
      have hname : (arg.captured formal).formal = formal := by cases arg <;> rfl
      have hrest : ∀ y ∈ bs, y.1 ∈ formals := fun y hy => hformals y (List.mem_cons_of_mem _ hy)
      rw [List.map_cons, List.nodup_cons] at hnames
      rw [List.foldl_cons]
      rcases List.mem_cons.1 hmem with rfl | hmem
      · have hother : ∀ y ∈ bs, (arg.captured formal).formal.name ≠ y.1.name := by
          intro y hy heq
          rw [hname] at heq
          exact hnames.1 (List.mem_map.2 ⟨y, hy, heq.symm⟩)
        cases harg with
        | value hfolds =>
            rw [if_pos hfolds]
            exact foldl_splicedIn_read_other id hother
        | deferred f hfolds =>
            rw [if_neg (by rw [hfolds]; exact Bool.false_ne_true)]
            have hread : Argument.splicedIn
                ((Argument.captured formal (.deferred ⟨f, some ⟨[], a⟩, none⟩)).read id)
                (formal, .deferred ⟨f, some ⟨[], a⟩, none⟩) = a := Captured.bindArgument_read _ id
            rw [hread]
            exact foldl_splicedIn_over ha hrest
      · have hne : formal.name ≠ x.1.name := fun heq =>
          hnames.1 (List.mem_map.2 ⟨_, hmem, heq⟩)
        have hsame : Argument.splicedIn ((arg.captured formal).read id) x =
            (arg.captured formal).read id := by
          obtain ⟨formal', arg'⟩ := x
          rcases arg' with _ | ⟨f, _ | l, d⟩
          · rfl
          · rfl
          · exact Captured.bindArgument_read_other _ id (by rw [hname]; exact hne)
        rw [hsame]
        exact foldl_splicedIn_read ha harg id hnames.2 hrest hmem

/-! ## The template with its arguments -/

/-- The accessors bound in a filled template. -/
theorem foldl_splicedIn_filled
    (hnodes : template.Everywhere fun w => (∃ r, w = .param r) ∨ w.Apart formals) :
    ∀ {bs : Bindings} {fill : Param → Expr → Prop} {u : Expr}, (∀ x ∈ bs, x.1 ∈ formals) →
      template.Filled fill u →
      template.Filled (fun x w => ∃ w₀, fill x w₀ ∧ w = bs.foldl Argument.splicedIn w₀)
        (bs.foldl Argument.splicedIn u)
  | [], _, _, _, hu => hu.imp fun x w hw => ⟨w, hw, rfl⟩
  | (formal, arg) :: bs, fill, u, h, hu => by
      have hstep : template.Filled
          (fun x w => ∃ w₀, fill x w₀ ∧ w = Argument.splicedIn w₀ (formal, arg))
          (Argument.splicedIn u (formal, arg)) := by
        rcases arg with _ | ⟨f, _ | l, d⟩
        · exact hu.imp fun x w hw => ⟨w, hw, rfl⟩
        · exact hu.imp fun x w hw => ⟨w, hw, rfl⟩
        · exact hu.bindArgument hnodes (h _ (List.mem_cons_self ..))
      refine (foldl_splicedIn_filled hnodes (fun x hx => h x (List.mem_cons_of_mem _ hx)) hstep).imp ?_
      rintro x w ⟨_, ⟨w₀, hw₀, rfl⟩, rfl⟩
      exact ⟨w₀, hw₀, rfl⟩

/-- **Binding the accessors puts the arguments in the places of their reads.** -/
theorem spliced_filled
    (hnodes : template.Everywhere fun w => (∃ r, w = .param r) ∨ w.Apart formals)
    (hnames : (formals.map FormalParam.name).Nodup) (hlength : formals.length = as.length)
    (has : ∀ a ∈ as, a.Over V formals p) (hargs : List.Forall₂ (Binds host V) as args)
    (hu : template.Filled
      (Stands q ((formals.zip args).map fun x => x.2.captured x.1)) u) :
    template.Filled (Spliced host V formals as (.param q))
      ((formals.zip args).foldl Argument.splicedIn u) := by
  have hformals : ∀ x ∈ formals.zip args, x.1 ∈ formals := fun x hx => (List.of_mem_zip hx).1
  have hzip : ((formals.zip args).map fun x => x.1.name).Nodup := by
    have hfst : (formals.zip args).map Prod.fst = formals :=
      List.map_fst_zip (Nat.le_of_eq (hlength.trans hargs.length_eq))
    rw [show (fun x : FormalParam × Argument => x.1.name) = FormalParam.name ∘ Prod.fst from rfl,
      ← List.map_map, hfst]
    exact hnames
  refine (foldl_splicedIn_filled hnodes hformals hu).imp ?_
  rintro x w ⟨w₀, hw₀, rfl⟩
  cases hw₀ with
  | own => rw [foldl_splicedIn_param]; exact .own
  | @argument index c id hc =>
      rw [List.getElem?_map, Option.map_eq_some_iff] at hc
      obtain ⟨⟨formal, arg⟩, hx, rfl⟩ := hc
      obtain ⟨hformal, harg⟩ := List.getElem?_zip_eq_some.1 hx
      obtain ⟨a, ha, hbinds⟩ := forall₂_getElem? hargs harg
      have hover := has a (List.mem_of_getElem? ha)
      dsimp only
      rw [foldl_splicedIn_read hover hbinds id hzip hformals (List.mem_of_getElem? hx)]
      cases hbinds with
      | value hfolds hw hrecurs => rw [if_pos hfolds]; exact .value id ha hformal hw hrecurs
      | deferred f hfolds =>
          rw [if_neg (by rw [hfolds]; exact Bool.false_ne_true)]
          exact .deferred ha

/-- What stands at the places after the parameter has been replaced. -/
theorem Spliced.substitute {x : Param} {w : Expr} (h : Spliced host V formals as (.param q) x w)
    (has : ∀ a ∈ as, a.Over V formals p) (hq : q ≠ p) (b : Expr) :
    Spliced host V formals as b x (Tree.substitute q b w) := by
  cases h with
  | own =>
      rw [show Tree.substitute q b (.param q) = b from if_pos rfl]
      exact .own
  | deferred ha =>
      have hover := has _ (List.mem_of_getElem? ha)
      rw [Tree.substitute_unread (hover.unread hq) hover.lambdaless]
      exact .deferred ha
  | value id ha hformal hw hrecurs => exact .value id ha hformal hw hrecurs

/-- What holds of nodes that refer to no dual and are no parameters, and everywhere in the arguments,
holds everywhere in the template with its arguments. -/
theorem Spliced.everywhere {R : Bool → Param → Prop} {c : Bool} {prop : Expr → Prop}
    (htemplate : Term V (Tree.Apart formals) R c template)
    (hformals : ∀ formal ∈ formals, formal.ty.wrapper? = none)
    (hu : template.Filled (Spliced host V formals as b) u)
    (hprop : ∀ w : Expr, w.refersToDual = false → (∀ r, w ≠ .param r) → prop w)
    (hb : b.Everywhere prop) (has : ∀ a ∈ as, a.Everywhere prop) : u.Everywhere prop := by
  refine hu.everywhere (htemplate.everywhere.imp fun w hw => ?_) fun x w hw => ?_
  · rcases hw with ⟨_, r, rfl, _⟩ | ⟨hapart, hparam, _⟩
    · exact .inl ⟨r, rfl⟩
    · refine .inr fun v hv => hprop v ((refersToDual_head hv).trans hapart.1) ?_
      rintro r rfl
      cases w <;> first | exact hparam _ rfl | cases hv
  · cases hw with
    | own => exact hb
    | deferred ha => exact has _ (List.mem_of_getElem? ha)
    | value id ha hformal hw hrecurs =>
        have hty := hformals _ (List.mem_of_getElem? hformal)
        refine Captured.read_everywhere _ id (fun v ty h => hprop _ ?_ fun r h => by cases h)
          fun target m hm hd => hprop _ ?_ fun r h => by cases h
        · simp [Tree.refersToDual, h]
        · simp only [Tree.refersToDual, hm, hd, hty]
          rfl

/-! ## Rewriting -/

/-- A pass asked for on a settled tree. -/
theorem rewrite_settled_triple {pass : DualPass} (hu : u.Settled) (herr : ∀ s, P s → err s) :
    Triple host ends err P (fun w s => w = u ∧ P s) fun E => E.rewrite pass u :=
  Triple.step (y := fun E => pass.run E u) rfl (fun _ => rfl) herr
    (Triple.congr (fun _ => hu.run) (Triple.pure fun _ hs => ⟨rfl, hs⟩))

theorem runPasses_settled_triple (hu : u.Settled) (herr : ∀ s, P s → err s) :
    ∀ passes, Triple host ends err P (fun w s => w = u ∧ P s) fun E => runPasses E passes u
  | [] => Triple.pure fun _ hs => ⟨rfl, hs⟩
  | pass :: passes => by
      refine Triple.congr (fun _ => runPasses_cons ..) ?_
      refine (rewrite_settled_triple hu herr).bind fun w => Triple.assuming (fun s hs => hs.1) ?_
      intro hw
      rw [hw]
      exact (runPasses_settled_triple hu herr passes).imp (fun s hs => hs.2) fun _ _ h => h

/-- The pipeline over a lambda without references but parameters. -/
theorem rewriteLambda_inert_triple {x : Param} (hu : u.Inert) (herr : ∀ s, P s → err s) :
    Triple host ends err P (fun l s => l = ⟨[x], u⟩ ∧ P s) fun E => rewriteLambda E ⟨[x], u⟩ := by
  refine (runPasses_settled_triple (Tree.inert_lambda.2 hu).settled herr DualPass.all).bind fun w =>
    Triple.assuming (fun s hs => hs.1) ?_
  rintro rfl
  exact Triple.lift rfl fun s hs => ⟨rfl, hs.2⟩

section Pipeline

variable {x : Param} {pass : DualPass} {R R₁ R₂ R₃ R₄ : Expr → Store → Prop}

/-- A pass over a lambda is the pass over its body. -/
theorem lambda_pass_triple (herr : ∀ s, P s → err s) (h : Triple host ends err P R fun E => pass.run E t) :
    Triple host ends err P (fun u s => ∃ u', u = .lambda [x] u' ∧ R u' s)
      fun E => E.rewrite pass (.lambda [x] t) := by
  refine Triple.step (y := fun E => pass.run E (.lambda [x] t)) rfl (fun _ => rfl) herr ?_
  refine Triple.congr (y := fun E => do return .lambda [x] (← pass.run E t)) (fun E => ?_) ?_
  · rw [run_eq_fill rfl fun _ _ _ h => by cases h]
    show (do return Tree.fill _ (← [t].mapM _)) = _
    simp [Tree.head, Tree.fill, Tree.node, Node.map]
  · exact h.bind fun u => Triple.pure fun s hs => ⟨u, rfl, hs⟩

/-- The pipeline over a lambda is its passes over the body. -/
theorem rewriteLambda_triple (herr : ∀ s, P s → err s) (herr₁ : ∀ u s, R₁ u s → err s)
    (herr₂ : ∀ u s, R₂ u s → err s) (herr₃ : ∀ u s, R₃ u s → err s)
    (h₁ : Triple host ends err P R₁ fun E => DualPass.factories.run E t)
    (h₂ : ∀ u, Triple host ends err (R₁ u) R₂ fun E => DualPass.combinators.run E u)
    (h₃ : ∀ u, Triple host ends err (R₂ u) R₃ fun E => (DualPass.inlining .specification).run E u)
    (h₄ : ∀ u, Triple host ends err (R₃ u) R₄ fun E => (DualPass.inlining .projection).run E u) :
    Triple host ends err P (fun l s => ∃ u, l = ⟨[x], u⟩ ∧ R₄ u s)
      fun E => rewriteLambda E ⟨[x], t⟩ := by
  have hnext : ∀ {R R' : Expr → Store → Prop} {pass : DualPass}, (∀ u s, R u s → err s) →
      (∀ u, Triple host ends err (R u) R' fun E => pass.run E u) → ∀ u, Triple host ends err
        (fun s => ∃ u', u = .lambda [x] u' ∧ R u' s) (fun v s => ∃ v', v = .lambda [x] v' ∧ R' v' s)
        fun E => E.rewrite pass u := by
    intro R R' pass herr h u
    refine Triple.of_each fun s hs => ?_
    obtain ⟨u', rfl, hu'⟩ := hs
    exact (lambda_pass_triple (herr u') (h u')).imp (fun s' hs' => hs' ▸ hu') fun _ _ h => h
  have hpasses : Triple host ends err P (fun v s => ∃ v', v = .lambda [x] v' ∧ R₄ v' s)
      fun E => runPasses E DualPass.all (.lambda [x] t) :=
    (lambda_pass_triple herr h₁).bind fun u₁ => (hnext herr₁ h₂ u₁).bind fun u₂ =>
      (hnext herr₂ h₃ u₂).bind fun u₃ => (hnext herr₃ h₄ u₃).bind fun u₄ => Triple.pure fun s hs => hs
  refine hpasses.bind fun v => Triple.of_each fun s hs => ?_
  obtain ⟨v', rfl, hv'⟩ := hs
  exact Triple.lift rfl fun s' hs' => ⟨v', rfl, hs' ▸ hv'⟩

end Pipeline

/-! ## Tree forms -/

variable (hbuild : Builds host build formals template)
  (htemplate : Term V (Tree.Apart formals) (Place (List.replicate formals.length false)) false template)
  (hnames : (formals.map FormalParam.name).Nodup) (hlength : formals.length = as.length)
  (has : ∀ a ∈ as, a.Over V formals p) (hargs : List.Forall₂ (Binds host V) as args) (hP : Stable P)
  (herr : ∀ s, P s → err s) (hp : ∀ s, P s → p.id < s.nextId)

include hbuild htemplate hnames hlength has hargs hP herr hp

/-- The tree form before it is rewritten is the template with its arguments. -/
theorem spliced_triple : Triple host ends err P
    (fun l s => (∃ q u, l = ⟨[q], u⟩ ∧ q ≠ p ∧
      template.Filled (Spliced host V formals as (.param q)) u) ∧ P s)
    fun E => Bindings.tree host E (.tree build) (formals.zip args) := by
  have hcaptured : ((formals.zip args).map fun x => x.2.captured x.1).map Captured.formal = formals := by
    rw [List.map_map]
    refine Eq.trans (List.map_congr_left fun x _ => ?_)
      (List.map_fst_zip (Nat.le_of_eq (hlength.trans hargs.length_eq)))
    rcases x with ⟨formal, _ | _⟩ <;> rfl
  refine Triple.congr (fun E => show _ = (do
    let l ← host.buildTree E build ((formals.zip args).map fun x => x.2.captured x.1)
    let _ ← Act.lift (l.expectSingle "expression")
    return { l with body := ← (formals.zip args).foldlM (Bindings.splice host E) l.body }) from ?_) ?_
  · simp only [Bindings.tree, Builders.buildTree, bind_assoc, pure_bind]
  refine (hbuild.triple hcaptured hP herr hp).bind (f := fun E l => do
    let _ ← Act.lift (l.expectSingle "expression")
    return { l with body := ← (formals.zip args).foldlM (Bindings.splice host E) l.body })
    fun l => Triple.assuming (fun s hs => hs.1) ?_
  rintro ⟨q, u, rfl, hq, hu⟩
  refine (Triple.lift (Q := fun _ => P) (a := q) rfl fun s hs => hs.2).bind fun _ => ?_
  have hbinds : ∀ x ∈ formals.zip args, ∃ a, Binds host V a x.2 := fun x hx => by
    obtain ⟨i, hi⟩ := List.mem_iff_getElem?.1 hx
    obtain ⟨a, _, ha⟩ := forall₂_getElem? hargs (List.getElem?_zip_eq_some.1 hi).2
    exact ⟨a, ha⟩
  refine Triple.congr (fun E => by rw [foldlM_splice _ hbinds, pure_bind]) (Triple.pure fun s hs => ?_)
  refine ⟨⟨q, _, rfl, ?_, ?_⟩, hs⟩
  · rintro rfl
    exact Nat.lt_irrefl _ hq
  · exact spliced_filled (htemplate.everywhere.imp fun w hw => hw.imp (fun ⟨_, r, h, _⟩ => ⟨r, h⟩)
      And.left) hnames hlength has hargs hu

/-- **The tree form of a dual bound in a tree is the template with its arguments.** -/
theorem tree_triple (hformals : ∀ formal ∈ formals, formal.ty.wrapper? = none)
    (ho : d.origin = .bound (.tree build) (formals.zip args))
    (hnone : ∀ s, P s → s.trees[d.id]? = none) {P' : Store → Prop}
    (hwrite : ∀ s l, P s → P' ((Slot.tree d).write l s)) :
    Triple host ends err P (fun l s => (∃ q u, l = ⟨[q], u⟩ ∧ q ≠ p ∧
      template.Filled (Spliced host V formals as (.param q)) u) ∧ P' s) fun E => E.tree d := by
  refine Triple.step (y := fun E => d.forceTree host E) rfl (fun _ => rfl) herr
    (Triple.publishFirst hnone (Q := fun l s => (∃ q u, l = ⟨[q], u⟩ ∧ q ≠ p ∧
      template.Filled (Spliced host V formals as (.param q)) u) ∧ P s) ?_
      fun s l hl => ⟨hnone s hl.2, hl.1, hwrite s l hl.2⟩)
  refine Triple.congr (fun E => show d.initialTree host E = (do
    rewriteLambda E (← Bindings.tree host E (.tree build) (formals.zip args))) from ?_) ?_
  · unfold Dual.initialTree
    rw [ho]
  refine (spliced_triple hbuild htemplate hnames hlength has hargs hP herr hp).bind fun l =>
    Triple.assuming (fun s hs => hs.1) ?_
  rintro ⟨q, u, rfl, hq, hu⟩
  refine (rewriteLambda_inert_triple ?_ herr).imp (fun s hs => hs.2) fun l s hl =>
    ⟨⟨q, u, hl.1, hq, hu⟩, hl.2⟩
  refine Spliced.everywhere htemplate hformals hu (fun w hw _ href => ?_) ?_ fun a ha => ?_
  · rw [hw] at href
    cases href
  · exact Tree.everywhere_leaf (fun _ => ⟨q, rfl⟩) rfl
  · exact (has a ha).unreferenced.imp fun w hw href => by rw [hw] at href; cases href

end DualForm
