import DualForm.Proofs.Factory.Splicing
import DualForm.Proofs.Rewriting.References

/-!
# Static types under rewriting

* `Typed D t` — the only references to duals in `t` are evaluations of literal duals with `D`, each on an
  argument whose static type is the source of the dual.
* `Lambda.Declares l source result` — the lambda has the function type from `source` to `result`.
* `Declaring host P D` — asked for in a store with `P`, the duals with `D` hand out lambdas without references
  that have the types the duals declare.

Principal results: `Tree.ty_substitute` — replacing a parameter by a tree of its type changes no static type;
`Typed.run` — neither does a pass over evaluations of such duals; `rewriteLambda_typed` — nor the pipeline, which
always ends.
-/

namespace DualForm

variable {host : Host} {D : Dual → Prop} {P : Store → Prop} {d : Dual} {p : Param} {a t u : Expr} {l : Lam}

/-! ## Static types of trees -/

namespace Tree

variable {ν γ ι : Type}

/-- The static type of a tree depends on its top node and on the static types below. -/
theorem ty_of_head {t u : Tree ν γ ι} (hhead : t.head = u.head)
    (hchildren : t.children.map ty = u.children.map ty) : t.ty = u.ty := by
  cases t <;> cases u <;>
    first | contradiction | simp_all [head, children, node, Node.map, Node.children, ty]

/-- A parameter that takes the place of one of its type leaves the types of a parameter list. -/
theorem redeclare_types {p : Param} {a : Tree ν γ ι} (h : a.ty = p.ty) (ps : List Param) :
    (redeclare p a ps).map Param.ty = ps.map Param.ty := by
  unfold redeclare
  split
  · rename_i r
    rw [List.map_map]
    refine List.map_congr_left fun q _ => ?_
    show (if q = p then r else q).ty = q.ty
    split
    · rename_i hq
      rw [hq]
      exact h
    · rfl
  · rfl

/-- **Replacing a parameter by a tree of its type changes no static type.** -/
theorem ty_substitute {p : Param} {a : Tree ν γ ι} (h : a.ty = p.ty) (t : Tree ν γ ι) :
    (substitute p a t).ty = t.ty := by
  induction t using binderwise with
  | param r =>
      unfold substitute
      split
      · rename_i hr
        rw [hr]
        exact h
      · rfl
  | lambda ps b ih =>
      rw [substitute_lambda]
      simp only [ty, redeclare_types h, ih]
  | other t hparam hlambda ih =>
      refine ty_of_head (substitute_head hparam hlambda) ?_
      rw [substitute_children hparam, List.map_map]
      exact List.map_congr_left ih

end Tree

/-! ## Evaluations on arguments of the declared type -/

/-- The only references to duals are evaluations of literal duals with `D`, on arguments of the type of their
source. -/
inductive Typed (D : Dual → Prop) : Expr → Prop
  | node {t : Expr} : t.refersToDual = false → (∀ c ∈ t.children, Typed D c) → Typed D t
  | invoked {d : Dual} {arg : Expr} : D d → arg.ty = d.source → Typed D arg → Typed D (d.invoked arg)
  | called {d : Dual} {arg : Expr} : D d → arg.ty = d.source → Typed D arg → Typed D (d.called arg)

namespace Typed

theorem mono {D' : Dual → Prop} (h : Typed D t) (hD : ∀ d, D d → D' d) : Typed D' t := by
  induction h with
  | node ht _ ih => exact .node ht ih
  | invoked hd hty _ ih => exact .invoked (hD _ hd) hty ih
  | called hd hty _ ih => exact .called (hD _ hd) hty ih

/-- Without evaluations of duals there are no references. -/
theorem unreferenced (h : Typed (fun _ => False) t) : t.referencesDuals = false := by
  refine Tree.anyNode_eq_false.2 ?_
  induction h with
  | node ht _ ih => exact Tree.everywhere_iff.2 ⟨ht, ih⟩
  | invoked hd => exact hd.elim
  | called hd => exact hd.elim

theorem of_unreferenced (h : t.referencesDuals = false) : Typed D t := by
  replace h := Tree.anyNode_eq_false.1 h
  induction t using Tree.childwise with
  | step t ih => exact .node h.here fun c hc => ih c hc (h.child hc)

/-- A member read in such a tree reads no evaluator. -/
theorem member_plain {receiver : Expr} {m : Member Getter} (h : Typed D (.member receiver m)) :
    m.declaring.wrapper? = none := by
  generalize ht : Tree.member receiver m = t at h
  cases h with
  | node h _ =>
      subst ht
      simpa using (Bool.or_eq_false_iff.1 h).2
  | invoked => cases ht
  | called => cases ht

theorem param (h : p.ty.wrapper? = none) : Typed D (.param p) :=
  .node (by simp [Tree.refersToDual, h]) fun c hc => by cases hc

theorem operation {op : BinaryOp} {b : Expr} (ha : Typed D a) (hb : Typed D b) :
    Typed D (.operation op a b) :=
  .node rfl (List.forall_mem_cons.2 ⟨ha, List.forall_mem_singleton.2 hb⟩)

theorem complement (ha : Typed D a) : Typed D a.complement :=
  .node rfl (List.forall_mem_singleton.2 ha)

theorem lambda_iff {ps : List Param} {b : Expr} : Typed D (.lambda ps b) ↔ Typed D b := by
  constructor
  · intro h
    generalize ht : Tree.lambda ps b = t at h
    cases h with
    | node _ hc =>
        subst ht
        exact hc b (List.mem_singleton.2 rfl)
    | invoked => cases ht
    | called => cases ht
  · intro hb
    exact .node rfl (List.forall_mem_singleton.2 hb)

/-- A tree of the type of a parameter may take its place. It need not be typed itself where no tree without
references reads the parameter. -/
theorem substitute (ht : Typed D t) (hty : a.ty = p.ty) (ha : p.ty.wrapper? = none → Typed D a) :
    Typed D (Tree.substitute p a t) := by
  induction ht with
  | @node t ht hc ih =>
      by_cases hparam : ∃ q, t = .param q
      · obtain ⟨q, rfl⟩ := hparam
        unfold Tree.substitute
        split
        · rename_i hq
          refine ha ?_
          rw [← hq]
          simpa [Tree.refersToDual] using ht
        · exact .node ht hc
      · have hp : ∀ q, t ≠ .param q := fun q h => hparam ⟨q, h⟩
        refine .node (by rw [refersToDual_substitute (hp p)]; exact ht) fun c hmem => ?_
        rw [Tree.substitute_children hp] at hmem
        obtain ⟨u, hu, rfl⟩ := List.mem_map.1 hmem
        exact ih u hu
  | invoked hd harg _ ih => exact .invoked hd ((Tree.ty_substitute hty _).trans harg) ih
  | called hd harg _ ih => exact .called hd ((Tree.ty_substitute hty _).trans harg) ih

end Typed

/-! ## Lambdas of the declared type -/

/-- The lambda has the function type from `source` to `result`. -/
def Lambda.Declares (l : Lam) (source result : Ty) : Prop := l.ty = .func [source] result

theorem Lambda.declares_iff {source result : Ty} :
    l.Declares source result ↔ (∃ p, l.params = [p] ∧ p.ty = source) ∧ l.body.ty = result := by
  show Ty.func (l.params.map Param.ty) l.body.ty = _ ↔ _
  rw [Ty.func.injEq, List.map_eq_singleton_iff]

/-- Asked for in a store with `P`, the duals with `D` hand out lambdas without references that have the types
the duals declare, and nothing takes `P` away. -/
def Declaring (host : Host) (P : Store → Prop) (D : Dual → Prop) : Prop :=
  ∀ d, D d → Triple host True P P (fun l s => (l.Declares d.source d.result ∧
    l.tree.referencesDuals = false) ∧ P s) fun E => E.tree d

/-! ## One pass -/

section Pass

variable {pass : DualPass}

/-- A pass over a node it rebuilds: if it leaves the types of the direct subtrees, it leaves the type of the
node. -/
theorem node_typed {D' : Dual → Prop} (ht : t.refersToDual = false) (hc : ∀ c ∈ t.children, Typed D c)
    (h : ∀ c ∈ t.children, Triple host True P P (fun u s => (Typed D' u ∧ u.ty = c.ty) ∧ P s)
      fun E => pass.run E c) :
    Triple host True P P (fun u s => (Typed D' u ∧ u.ty = t.ty) ∧ P s) fun E => pass.run E t := by
  refine Triple.congr (fun E => run_eq_fill ht fun receiver m arg heq => ?_) ?_
  · exact (hc (.member receiver m) (by rw [heq]; exact List.mem_cons_self ..)).member_plain
  refine (Triple.mapM_mem (f := fun E c => pass.run E c) t.children h).bind fun cs =>
    Triple.assuming (fun s hs => hs.1) fun hcs => Triple.pure fun s hs => ⟨⟨?_, ?_⟩, hs.2⟩
  · obtain ⟨hhead, hchildren⟩ := Tree.fill_spec hcs.length_eq.symm
    refine .node (by rw [refersToDual_head hhead]; exact ht) ?_
    rw [hchildren]
    exact forall_right hcs fun _ _ _ h => h.1
  · obtain ⟨hhead, hchildren⟩ := Tree.fill_spec hcs.length_eq.symm
    refine Tree.ty_of_head hhead ?_
    rw [hchildren]
    have hsame : List.Forall₂ (· = ·) (cs.map Tree.ty) (t.children.map Tree.ty) :=
      List.forall₂_map_left_iff.2 (List.forall₂_map_right_iff.2 (hcs.flip.imp fun _ _ h => h.2))
    rwa [List.forall₂_eq_eq_eq] at hsame

/-- A pass over a tree without references in which a typed argument has been put. The induction is on the tree;
at the places of the parameter the pass does what it does to the argument. -/
theorem inserted_typed {D' : Dual → Prop} {b : Expr} (hb : Typed (fun _ => False) b) (hty : a.ty = p.ty)
    (ha : Typed D a) (hrun : Triple host True P P (fun u s => (Typed D' u ∧ u.ty = a.ty) ∧ P s)
      fun E => pass.run E a) :
    Triple host True P P (fun u s => (Typed D' u ∧ u.ty = b.ty) ∧ P s)
      fun E => pass.run E (Tree.substitute p a b) := by
  induction hb with
  | @node b hrefers hc ih =>
      by_cases hparam : ∃ q, b = .param q
      · obtain ⟨q, rfl⟩ := hparam
        unfold Tree.substitute
        split
        · rename_i hq
          subst hq
          rwa [show (Tree.param q : Expr).ty = a.ty from hty.symm]
        · refine Triple.congr (fun E => (Tree.settled_param q).run) (Triple.pure fun s hs => ?_)
          exact ⟨⟨.node hrefers (fun c h => by cases h), rfl⟩, hs⟩
      · have hp : ∀ q, b ≠ .param q := fun q h => hparam ⟨q, h⟩
        rw [← Tree.ty_substitute hty b]
        have hsub : ∀ c ∈ (Tree.substitute p a b).children, ∃ e ∈ b.children, c = Tree.substitute p a e := by
          intro c hmem
          rw [Tree.substitute_children hp] at hmem
          obtain ⟨e, he, rfl⟩ := List.mem_map.1 hmem
          exact ⟨e, he, rfl⟩
        refine node_typed (D := D) (by rw [refersToDual_substitute (hp p)]; exact hrefers) (fun c hmem => ?_)
          fun c hmem => ?_
        · obtain ⟨e, he, rfl⟩ := hsub c hmem
          exact ((hc e he).mono fun _ h => h.elim).substitute hty fun _ => ha
        · obtain ⟨e, he, rfl⟩ := hsub c hmem
          rw [Tree.ty_substitute hty e]
          exact ih e he
  | invoked hd => exact hd.elim
  | called hd => exact hd.elim

/-- An evaluation that is inlined has the type that the dual declares as its result. -/
theorem spliced_typed {D' : Dual → Prop} (hD : Declaring host P D) (hd : D d) (hty : a.ty = d.source)
    (ha : Typed D a) (hrun : Triple host True P P (fun u s => (Typed D' u ∧ u.ty = a.ty) ∧ P s)
      fun E => (DualPass.inlining d.kind).run E a) :
    Triple host True P P (fun u s => (Typed D' u ∧ u.ty = d.result) ∧ P s) fun E => spliced E d a := by
  unfold spliced
  refine (hD d hd).bind fun l => Triple.assuming (fun s hs => hs.1) ?_
  rintro ⟨hdeclares, hfree⟩
  obtain ⟨⟨q, hq, hsource⟩, hresult⟩ := Lambda.declares_iff.1 hdeclares
  have hbody : Typed (fun _ => False) l.body := Typed.lambda_iff.1 (Typed.of_unreferenced hfree)
  refine (Triple.lift (Q := fun b s => b = Tree.substitute q a l.body ∧ P s)
    (Lambda.applied_ok.2 ⟨q, hq, rfl⟩) fun s hs => ⟨rfl, hs.2⟩).bind fun b =>
      Triple.assuming (fun s hs => hs.1) ?_
  rintro rfl
  refine Triple.step (y := fun E => (DualPass.inlining d.kind).run E _) rfl (fun _ => rfl) (fun s hs => hs.2) ?_
  rw [← hresult]
  exact (inserted_typed hbody (hty.trans hsource.symm) ha hrun).imp (fun s hs => hs.2) fun _ _ h => h

/-- **A pass changes no static type:** nodes are put back on subtrees of the same types, and evaluations become
trees of the type that the dual declares as its result. -/
theorem Typed.run (hD : Declaring host P D) (ht : Typed D t) :
    Triple host True P P (fun u s => (Typed (pass.leaves D) u ∧ u.ty = t.ty) ∧ P s) fun E => pass.run E t := by
  induction ht with
  | node ht hc ih => exact node_typed ht hc ih
  | @invoked d arg hd hty ha ih =>
      by_cases hpass : pass = .inlining d.kind
      · subst hpass
        exact Triple.congr (fun _ => run_invoked_same ..) (spliced_typed hD hd hty ha ih)
      · refine Triple.congr (fun _ => run_invoked_other hpass _) (ih.bind fun u => Triple.pure ?_)
        rintro s ⟨⟨hu, hsame⟩, hs⟩
        exact ⟨⟨.invoked ⟨hd, hpass⟩ (hsame.trans hty) hu, rfl⟩, hs⟩
  | @called d arg hd hty ha ih =>
      by_cases hpass : pass = .inlining d.kind
      · subst hpass
        exact Triple.congr (fun _ => run_called_same ..) (spliced_typed hD hd hty ha ih)
      · refine Triple.congr (fun _ => run_called_other hpass _) (ih.bind fun u => Triple.pure ?_)
        rintro s ⟨⟨hu, hsame⟩, hs⟩
        exact ⟨⟨.called ⟨hd, hpass⟩ (hsame.trans hty) hu, rfl⟩, hs⟩

/-! ## The pipeline -/

theorem Declaring.mono {D' : Dual → Prop} (h : Declaring host P D) (hD : ∀ d, D' d → D d) :
    Declaring host P D' := fun d hd => h d (hD d hd)

/-- No kind of dual is left by the two passes that inline. -/
theorem leaves_all : ∀ d, ¬ DualPass.leaves (.inlining .projection)
    (DualPass.leaves (.inlining .specification) D) d := by
  rintro d ⟨⟨_, hspecification⟩, hprojection⟩
  cases hk : d.kind with
  | specification => exact hspecification (by rw [hk])
  | projection => exact hprojection (by rw [hk])

/-- **The pipeline over a lambda that evaluates such duals** ends with a lambda of the same type, without
references. -/
theorem rewriteLambda_typed {b : Expr} (hD : Declaring host P D) (hb : Typed D b) :
    Triple host True P P (fun l s => (l.Declares p.ty b.ty ∧ l.tree.referencesDuals = false) ∧ P s)
      fun E => rewriteLambda E ⟨[p], b⟩ := by
  have hpass : ∀ (pass : DualPass) (D' : Dual → Prop), (∀ d, D' d → D d) → ∀ u,
      Triple host True P (fun s => (Typed D' u ∧ u.ty = b.ty) ∧ P s)
        (fun v s => (Typed (pass.leaves D') v ∧ v.ty = b.ty) ∧ P s) fun E => pass.run E u := by
    intro pass D' hD' u
    refine Triple.assuming (fun s hs => hs.1) ?_
    rintro ⟨hu, hty⟩
    refine (hu.run (hD.mono hD')).imp (fun s hs => hs.2) ?_
    rintro v s ⟨⟨hv, hsame⟩, hs⟩
    exact ⟨⟨hv, hsame.trans hty⟩, hs⟩
  refine (rewriteLambda_triple (fun s hs => hs) (fun _ _ hs => hs.2) (fun _ _ hs => hs.2)
    (fun _ _ hs => hs.2) ((hpass _ D (fun _ h => h) b).imp (fun s hs => ⟨⟨hb, rfl⟩, hs⟩) fun _ _ h => h)
    (hpass _ _ fun _ h => h.1) (hpass _ _ fun _ h => h.1.1) (hpass _ _ fun _ h => h.1.1.1)).imp
      (fun s hs => hs) ?_
  rintro l s ⟨u, rfl, ⟨hu, hty⟩, hs⟩
  have hnone : Typed (fun _ => False) u := hu.mono leaves_all
  exact ⟨⟨Lambda.declares_iff.2 ⟨⟨p, rfl, rfl⟩, hty⟩, (Typed.lambda_iff.2 hnone).unreferenced⟩, hs⟩

end Pass

end DualForm
