import DualForm.Proofs.Tree.Renaming
import DualForm.Rewriting.Pass

/-!
# Renaming to a fresh parameter

* `Param.renamed p q r` — the parameter in the place of `r`, where `q` takes the place of `p`.
* `Tree.Absent p t` — `p` is neither read nor declared in `t`.
* `Renaming.Tracks p q r` — each declaration made so far has its renamed one as partner, and `p` is among them.

Reads are renamed at parameter nodes and declarations at lambdas, each wherever it stands. So the two stay in
step at every depth, also where lambdas declare the parameter again: the partner of a declaration is always its
renamed one, and it does not matter which of them a read is of.

Principal results: `Tree.compareUnder_renamed` — a tree below a declaration of the parameter compares equal to the
renamed one; `Tree.substitute_back` — renaming back from a parameter that was absent; `Lambda.rename_fresh` — both
together for a lambda that declares the parameter.
-/

namespace DualForm

variable {ν γ ι : Type} {p q : Param}

namespace Param

/-- The parameter in the place of `r`, where `q` takes the place of `p`. -/
def renamed (p q r : Param) : Param := if r = p then q else r

theorem renamed_self : renamed p q p = q := if_pos rfl

theorem renamed_other {r : Param} (h : r ≠ p) : renamed p q r = r := if_neg h

theorem renamed_ne (h : q ≠ p) (r : Param) : renamed p q r ≠ p := by
  by_cases hr : r = p
  · rw [hr, renamed_self]
    exact h
  · rw [renamed_other hr]
    exact hr

theorem renamed_back {r : Param} (h : r ≠ q) : renamed q p (renamed p q r) = r := by
  by_cases hr : r = p
  · rw [hr, renamed_self, renamed_self]
  · rw [renamed_other hr, renamed_other h]

theorem renamed_ty (h : p.ty = q.ty) (r : Param) : (renamed p q r).ty = r.ty := by
  by_cases hr : r = p
  · rw [hr, renamed_self, h]
  · rw [renamed_other hr]

theorem renamed_types (h : p.ty = q.ty) (ps : List Param) : (ps.map (renamed p q)).map Param.ty = ps.map Param.ty := by
  rw [List.map_map]
  exact List.map_congr_left fun r _ => renamed_ty h r

end Param

namespace Tree

variable {a t : Tree ν γ ι}

theorem redeclare_renamed (ps : List Param) :
    redeclare p (.param q : Tree ν γ ι) ps = ps.map (Param.renamed p q) := rfl

theorem substitute_renamed (r : Param) :
    substitute p (.param q) (.param r : Tree ν γ ι) = .param (Param.renamed p q r) := by
  unfold substitute Param.renamed
  split <;> rfl

/-! ## Absent parameters -/

/-- The parameter is neither read nor declared. -/
def Absent (p : Param) (t : Tree ν γ ι) : Prop := t.Everywhere fun u => u ≠ .param p ∧ p ∉ u.declared

theorem absent_param {r : Param} : (.param r : Tree ν γ ι).Absent p ↔ r ≠ p := by
  constructor
  · intro h he
    exact h.here.1 (congrArg param he)
  · intro h
    exact everywhere_leaf ⟨fun he => h (param.inj he), List.not_mem_nil⟩ rfl

theorem absent_lambda {ps : List Param} {b : Tree ν γ ι} :
    (.lambda ps b : Tree ν γ ι).Absent p ↔ p ∉ ps ∧ b.Absent p := by
  constructor
  · intro h
    exact ⟨h.here.2, h.child (List.mem_singleton.2 rfl)⟩
  · rintro ⟨hps, hb⟩
    exact everywhere_single ⟨nofun, hps⟩ rfl hb

theorem absent_other (hparam : ∀ r, t ≠ .param r) (hlambda : ∀ ps b, t ≠ .lambda ps b) :
    t.Absent p ↔ ∀ c ∈ t.children, c.Absent p := by
  unfold Absent
  rw [everywhere_iff, declared_other hlambda]
  exact and_iff_right ⟨hparam p, List.not_mem_nil⟩

/-- A parameter that has been renamed is gone. -/
theorem substitute_absent (h : q ≠ p) (t : Tree ν γ ι) : (substitute p (.param q) t).Absent p := by
  induction t using binderwise with
  | param r =>
      rw [substitute_renamed, absent_param]
      exact Param.renamed_ne h r
  | lambda ps b ih =>
      rw [substitute_lambda, redeclare_renamed, absent_lambda]
      refine ⟨fun hmem => ?_, ih⟩
      obtain ⟨r, -, hr⟩ := List.mem_map.1 hmem
      exact Param.renamed_ne h r hr
  | other t hparam hlambda ih =>
      obtain ⟨hparam', hlambda'⟩ := substitute_other (q := p) (a := .param q) hparam hlambda
      rw [absent_other hparam' hlambda', substitute_children hparam]
      exact List.forall_mem_map.2 ih

/-- **Renaming can be undone,** if the new parameter was absent. -/
theorem substitute_back (h : t.Absent q) :
    substitute q (.param p) (substitute p (.param q) t) = t := by
  induction t using binderwise with
  | param r => rw [substitute_renamed, substitute_renamed, Param.renamed_back (absent_param.1 h)]
  | lambda ps b ih =>
      obtain ⟨hps, hb⟩ := absent_lambda.1 h
      have hback : (ps.map (Param.renamed p q)).map (Param.renamed q p) = ps := by
        rw [List.map_map]
        refine (List.map_congr_left fun r hr => ?_).trans (List.map_id ps)
        exact Param.renamed_back fun he => hps (he ▸ hr)
      rw [substitute_lambda, substitute_lambda, redeclare_renamed, redeclare_renamed, hback, ih hb]
  | other t hparam hlambda ih =>
      obtain ⟨hparam', hlambda'⟩ := substitute_other (q := p) (a := .param q) hparam hlambda
      have hchildren : ∀ c ∈ t.children, (substitute q (.param p) ∘ substitute p (.param q)) c = id c :=
        fun c hc => ih c hc ((absent_other hparam hlambda).1 h c hc)
      rw [← tree_node (substitute q (.param p) _), substitute_node hparam' hlambda',
        substitute_node hparam hlambda, Node.map_map, Node.map_congr hchildren, Node.map_id, tree_node]

end Tree

/-! ## Comparison -/

/-- The declarations made so far have their renamed ones as partners, and the parameter is one of them. -/
structure Renaming.Tracks (p q : Param) (r : Renaming) : Prop where
  partners : ∀ x ∈ r, x.2 = p.renamed q x.1
  declared : p ∈ r.left

namespace Renaming.Tracks

variable {r : Renaming}

/-- The partner of a read is its renamed one, whether it is declared or free. -/
theorem relates (h : r.Tracks p q) (s : Param) : r.relates s (p.renamed q s) = true := by
  unfold Renaming.relates
  cases hfind : r.find? (·.1 = s) with
  | some x =>
      have hx : x.1 = s := by simpa using List.find?_some hfind
      simp [h.partners x (List.mem_of_find?_eq_some hfind), hx]
  | none =>
      have hne : s ≠ p := by
        rintro rfl
        obtain ⟨x, hx, hxs⟩ := List.mem_map.1 h.declared
        exact List.find?_eq_none.1 hfind x hx (decide_eq_true hxs)
      simp [Param.renamed_other hne]

/-- New declarations have their renamed ones as partners. -/
theorem declare_partners (h : ∀ x ∈ r, x.2 = p.renamed q x.1) (ps : List Param) :
    ∀ x ∈ r.declare ps (ps.map (p.renamed q)), x.2 = p.renamed q x.1 := by
  intro x hx
  rcases List.mem_append.1 hx with hx | hx
  · rw [List.mem_reverse, ← List.map_prod_left_eq_zip] at hx
    obtain ⟨s, -, rfl⟩ := List.mem_map.1 hx
    rfl
  · exact h x hx

theorem declare (h : r.Tracks p q) (ps : List Param) : (r.declare ps (ps.map (p.renamed q))).Tracks p q := by
  refine ⟨declare_partners h.partners ps, ?_⟩
  rw [r.declare_left (List.length_map _).symm]
  exact List.mem_append_right _ h.declared

/-- The declarations of a lambda that declares the parameter. -/
theorem start {ps : List Param} (hp : p ∈ ps) :
    (Renaming.declare [] ps (ps.map (p.renamed q))).Tracks p q := by
  refine ⟨declare_partners (fun x hx => absurd hx List.not_mem_nil) ps, ?_⟩
  rw [Renaming.declare_left [] (List.length_map _).symm]
  exact List.mem_append_left _ (List.mem_reverse.2 hp)

end Renaming.Tracks

namespace Tree

variable [BEq ν] {r : Renaming} {t : Tree ν γ ι}

theorem compareAllUnder_map {f : Tree ν γ ι → Tree ν γ ι} : ∀ {ts : List (Tree ν γ ι)},
    (∀ c ∈ ts, compareUnder r c (f c) = true) → compareAllUnder r ts (ts.map f) = true
  | [], _ => rfl
  | c :: ts, h => by
      have hrest := compareAllUnder_map fun d hd => h d (List.mem_cons_of_mem c hd)
      simp [compareAllUnder, h c (List.mem_cons_self ..), hrest]

/-- Nodes that neither read nor declare parameters compare equal if their subtrees do. -/
theorem compareUnder_node {f : Tree ν γ ι → Tree ν γ ι} {u : Tree ν γ ι} (hparam : ∀ s, t ≠ .param s)
    (hlambda : ∀ ps b, t ≠ .lambda ps b) (hself : ∀ v ty, t = .literal v ty → (v == v) = true)
    (hu : u.node = t.node.map f) (h : ∀ c ∈ t.children, compareUnder r c (f c) = true) :
    compareUnder r t u = true := by
  rw [← tree_node u, hu]
  have hvia : ∀ via : Option (Method ι), Method.sameOption via via = true := by
    rintro (_ | m) <;> simp [Method.sameOption, Method.same]
  cases t with
  | param s => exact absurd rfl (hparam s)
  | lambda ps b => exact absurd rfl (hlambda ps b)
  | literal v ty => simp [node, Node.map, Node.tree, compareUnder, hself v ty rfl]
  | staticMember m => simp [node, Node.map, Node.tree, compareUnder, Member.same]
  | member target m =>
      have htarget := h target (List.mem_singleton.2 rfl)
      simp [node, Node.map, Node.tree, compareUnder, Member.same, htarget]
  | staticCall m args =>
      have hargs : compareAllUnder r args (args.map f) = true := compareAllUnder_map h
      simp [node, Node.map, Node.tree, compareUnder, Method.same, hargs]
  | call target m args =>
      obtain ⟨htarget, hargs⟩ := List.forall_mem_cons.1 h
      simp [node, Node.map, Node.tree, compareUnder, Method.same, htarget, compareAllUnder_map hargs]
  | binary op lhs rhs via =>
      obtain ⟨hlhs, hrhs⟩ := List.forall_mem_cons.1 h
      simp [node, Node.map, Node.tree, compareUnder, hvia, hlhs, List.forall_mem_singleton.1 hrhs]
  | unary op operand via ty =>
      have hoperand := h operand (List.mem_singleton.2 rfl)
      simp [node, Node.map, Node.tree, compareUnder, hvia, hoperand]
  | invoke callee args =>
      obtain ⟨hcallee, hargs⟩ := List.forall_mem_cons.1 h
      simp [node, Node.map, Node.tree, compareUnder, hcallee, compareAllUnder_map hargs]
  | conditional test ifTrue ifFalse =>
      obtain ⟨htest, hbranches⟩ := List.forall_mem_cons.1 h
      obtain ⟨htrue, hfalse⟩ := List.forall_mem_cons.1 hbranches
      simp [node, Node.map, Node.tree, compareUnder, htest, htrue, List.forall_mem_singleton.1 hfalse]

/-- Lambdas of which one declares the renamed parameters of the other compare equal if their bodies do. -/
theorem compareUnder_lambda (hty : p.ty = q.ty) {ps : List Param} {b c : Tree ν γ ι}
    (h : compareUnder (r.declare ps (ps.map (p.renamed q))) b c = true) :
    compareUnder r (.lambda ps b) (.lambda (ps.map (p.renamed q)) c) = true := by
  unfold compareUnder
  rw [Param.renamed_types hty, h]
  simp

/-- **Below a declaration of the parameter, a tree compares equal to the renamed one.** -/
theorem compareUnder_renamed (hr : r.Tracks p q) (hty : p.ty = q.ty)
    (hself : t.Literals fun v => (v == v) = true) :
    compareUnder r t (substitute p (.param q) t) = true := by
  induction t using binderwise generalizing r with
  | param s =>
      rw [substitute_renamed]
      exact hr.relates s
  | lambda ps b ih =>
      rw [substitute_lambda, redeclare_renamed]
      exact compareUnder_lambda hty (ih (hr.declare ps) (hself.child (List.mem_singleton.2 rfl)))
  | other t hparam hlambda ih =>
      refine compareUnder_node hparam hlambda hself.here (substitute_node hparam hlambda) fun c hc => ?_
      exact ih c hc hr (hself.child hc)

end Tree

/-! ## Lambdas -/

namespace Lambda

/-- The lambda with a parameter renamed throughout. -/
def renamed (p q : Param) (l : Lam) : Lam := ⟨l.params.map (p.renamed q), Tree.substitute p (.param q) l.body⟩

theorem renamed_run (E : Engine) (p q : Param) (l : Lam) :
    (Pass.substitute p (.param q)).runLambda E l = pure (l.renamed p q) := rfl

theorem renamed_compare {l : Lam} (hself : l.tree.Literals fun v => (v == v) = true) (hp : p ∈ l.params)
    (hty : p.ty = q.ty) : l.tree.compare (l.renamed p q).tree = true :=
  Tree.compareUnder_lambda hty <|
    Tree.compareUnder_renamed (.start hp) hty (hself.child (List.mem_singleton.2 rfl))

theorem renamed_literals {P : Value → Prop} {l : Lam} (h : l.tree.Literals P) : (l.renamed p q).tree.Literals P := by
  have hshallow : Tree.Shallow fun u : Expr => ∀ v ty, u = .literal v ty → P v := by
    refine ⟨fun {t u} hhead ht v ty hu => ?_, fun _ _ _ _ _ he => nomatch he⟩
    subst hu
    cases t with
    | literal w ty' =>
        cases hhead
        exact ht v ty rfl
    | _ => cases hhead
  have hq : (Tree.param q : Expr).Literals P := Tree.everywhere_leaf (fun _ _ he => nomatch he) rfl
  exact Tree.Everywhere.substitute hshallow hq h

theorem renamed_back {l : Lam} (h : l.tree.Absent q) : (l.renamed p q).renamed q p = l := by
  have htree : ((l.renamed p q).renamed q p).tree = l.tree := Tree.substitute_back h
  obtain ⟨hparams, hbody⟩ := Tree.lambda.inj htree
  exact congr (congrArg Lambda.mk hparams) hbody

/-- **Renaming to a fresh parameter is an alpha conversion that can be undone.** A lambda declares a parameter,
perhaps several times and at several depths, and its literals equal themselves. Renaming the parameter to one of the
same type that is neither read nor declared in the lambda makes a lambda in which the old one is neither read nor
declared, and each of the two compares equal to the other. Renaming back makes the first lambda again. -/
theorem rename_fresh (E : Engine) {l : Lam} {p q : Param} (hself : l.tree.Literals fun v => (v == v) = true)
    (hp : p ∈ l.params) (hty : p.ty = q.ty) (hq : l.tree.Absent q) :
    ∃ l' : Lam, (Pass.substitute p (.param q)).runLambda E l = pure l' ∧ l'.tree.Absent p ∧
      l.tree.compare l'.tree = true ∧ l'.tree.compare l.tree = true ∧
      (Pass.substitute q (.param p)).runLambda E l' = pure l := by
  have hne : q ≠ p := by
    rintro rfl
    exact (Tree.absent_lambda.1 hq).1 hp
  have hback : (l.renamed p q).renamed q p = l := renamed_back hq
  have hdeclared : q ∈ (l.renamed p q).params := List.mem_map.2 ⟨p, hp, Param.renamed_self⟩
  have hreverse := renamed_compare (renamed_literals hself) hdeclared hty.symm
  rw [hback] at hreverse
  refine ⟨l.renamed p q, renamed_run E p q l, Tree.substitute_absent hne l.tree, renamed_compare hself hp hty,
    hreverse, ?_⟩
  rw [renamed_run, hback]

namespace Shadowing

def x : Param := ⟨0, "x", .int⟩

def y : Param := ⟨1, "y", .int⟩

def z : Param := ⟨2, "z", .int⟩

/-- `(p, p) => (z => p + (p => p + 1)(z))` -/
def nested (p : Param) : Lam :=
  ⟨[p, p], .lambda [z] (.operation .add (.param p)
    (.invoke (.lambda [p] (.operation .add (.param p) (.literal (.int 1) .int))) [.param z]))⟩

/-- The nodes of the lambda. -/
theorem nested_everywhere {P : Expr → Prop} {p : Param} (hlambda : ∀ ps b, (∀ r ∈ ps, r = p ∨ r = z) → P (.lambda ps b))
    (hread : ∀ r, r = p ∨ r = z → P (.param r)) (hone : P (.literal (.int 1) .int))
    (hsum : ∀ a b, P (.operation .add a b)) (hcall : ∀ f as, P (.invoke f as)) : (nested p).tree.Everywhere P := by
  have hleaf : ∀ r, r = p ∨ r = z → (Tree.param r : Expr).Everywhere P := fun r hr =>
    Tree.everywhere_leaf (hread r hr) rfl
  have hinner : (Tree.lambda [p] (.operation .add (.param p) (.literal (.int 1) .int)) : Expr).Everywhere P :=
    Tree.everywhere_single (hlambda [p] _ (by simp)) rfl
      (Tree.everywhere_pair (hsum _ _) rfl (hleaf p (.inl rfl)) (Tree.everywhere_leaf hone rfl))
  refine Tree.everywhere_single (hlambda [p, p] _ (by simp)) rfl ?_
  refine Tree.everywhere_single (hlambda [z] _ (by simp)) rfl ?_
  refine Tree.everywhere_pair (hsum _ _) rfl (hleaf p (.inl rfl)) ?_
  exact Tree.everywhere_pair (hcall _ _) rfl hinner (hleaf z (.inr rfl))

theorem nested_self (p : Param) : (nested p).tree.Literals fun v => (v == v) = true := by
  refine nested_everywhere (fun _ _ _ => nofun) (fun _ _ => nofun) ?_ (fun _ _ => nofun) fun _ _ => nofun
  intro v ty h
  cases h
  decide

theorem nested_absent : (nested x).tree.Absent y := by
  refine nested_everywhere (fun ps b hps => ⟨nofun, fun hy => ?_⟩) (fun r hr => ⟨fun he => ?_, List.not_mem_nil⟩)
    ⟨nofun, List.not_mem_nil⟩ (fun _ _ => ⟨nofun, List.not_mem_nil⟩) fun _ _ => ⟨nofun, List.not_mem_nil⟩
  · exact absurd (hps y hy) (by decide)
  · cases he
    exact absurd hr (by decide)

/-- A parameter declared twice, and once more further in, is renamed and renamed back. -/
theorem rename_fresh_nested : (nested x).tree.Literals (fun v => (v == v) = true) ∧ x ∈ (nested x).params ∧
    x.ty = y.ty ∧ (nested x).tree.Absent y ∧
    ∃ l' : Lam, (Pass.substitute x (.param y)).runLambda .exhausted (nested x) = pure l' ∧ l'.tree.Absent x ∧
      (nested x).tree.compare l'.tree = true ∧ l'.tree.compare (nested x).tree = true ∧
      (Pass.substitute y (.param x)).runLambda .exhausted l' = pure (nested x) :=
  ⟨nested_self x, by decide, rfl, nested_absent,
    rename_fresh .exhausted (nested_self x) (by decide) rfl nested_absent⟩

end Shadowing

end Lambda

end DualForm
