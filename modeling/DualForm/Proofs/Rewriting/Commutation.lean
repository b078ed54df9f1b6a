import DualForm.Proofs.Rewriting.Termination
import DualForm.Tree.Comparison

/-!
# The order of the inlining passes

* `Direct D t` — the only references to duals in `t` are literals, evaluator reads, conversions and evaluations
  of duals with `D`.
* `Inlinable host I form D` — the duals with `D` have tree forms without references, of one parameter that no
  lambda inside declares again.
* `Bares form kind t` — inlining the kind makes the bare evaluator of a dual of another kind of `t`.
* `Apart form t` — what the top node applies, or hands to a lambda that applies it, is no such tree.
* `Diamond` — both passes over a tree, and what each makes of the result of the other.

Principal result: `inlining_commutes` — inlining specifications and then projections gives the same tree as
inlining projections and then specifications. The conditions are needed: an evaluator that one pass puts where it
is applied is inlined by the other pass only if it runs later (`inlining_order`).

Calls of both kinds nest in each other's arguments, and the first pass copies or drops calls of the other
kind. The induction is on the tree: each pass rewrites the argument of an evaluation of the other kind where
it stands, and every copy of it after it has been put into a body.
-/

namespace DualForm

variable {host : Host} {I : Store → Prop} {form : Dual → Lam} {D : Dual → Prop} {κ κ' : DualKind}

/-- The only references to duals are literals, evaluator reads, conversions and evaluations of duals with `D`. -/
inductive Direct (D : Dual → Prop) : Expr → Prop
  | plain {t : Expr} : t.refersToDual = false → (∀ d a, t ≠ Dual.invoked d a) → (∀ c ∈ t.children, Direct D c) →
      Direct D t
  | literal {d : Dual} : D d → Direct D d.literal
  | handed {d : Dual} (byConversion : Bool) : D d → Direct D (d.handed byConversion)
  | evaluation {d : Dual} {a : Expr} (byMethod : Bool) : D d → Direct D a → Direct D (d.evaluation byMethod a)

/-- The duals have tree forms without references, of one parameter that no lambda inside declares again. -/
structure Inlinable (host : Host) (I : Store → Prop) (form : Dual → Lam) (D : Dual → Prop) : Prop where
  tree : ∀ d, D d → Exactly host I (fun E => E.tree d) (form d)
  single : ∀ d, D d → ∃ p, (form d).params = [p] ∧ (form d).body.Undeclared p
  unreferenced : ∀ d, D d → (form d).body.referencesDuals = false

/-- Inlining the kind makes the bare evaluator of a dual of another kind of the tree: it is this evaluator, or
handed through duals whose lambda is `p => p`. -/
inductive Bares (form : Dual → Lam) (κ : DualKind) : Expr → Prop
  | read {w : Dual} : w.kind ≠ κ → Bares form κ w.functionRead
  | passed {d : Dual} {p : Param} {a : Expr} (byMethod : Bool) : d.kind = κ → (form d).params = [p] →
      (form d).body = .param p → Bares form κ a → Bares form κ (d.evaluation byMethod a)

/-- What the top node applies is not made an evaluator by inlining the other kind, nor what it evaluates a lambda
on that applies its parameter. The evaluator of a dual of the same kind may be evaluated on, unless both
lambdas apply their parameters to themselves. -/
structure Apart (form : Dual → Lam) (t : Expr) : Prop where
  applied : ∀ c a, t = .invoke c [a] → (∀ d, t ≠ Dual.invoked d a) → ∀ kind, ¬ Bares form kind c
  evaluated : ∀ (d : Dual) (byMethod : Bool) (a : Expr), t = d.evaluation byMethod a →
    (∀ p, (form d).params = [p] → (form d).body.Unapplied p) ∨ (∀ kind, ¬ Bares form kind a) ∨
      ∃ w : Dual, a = w.functionRead ∧ w.kind = d.kind ∧ ((form d).Calm ∨ (form w).Calm)

/-! ## Trees without references -/

theorem unreferenced_shallow : Tree.Shallow fun u : Expr => u.refersToDual = false where
  head h ht := refersToDual_head h ▸ ht
  lambda _ _ _ := rfl

theorem unreferenced_substitute {p : Param} {a b : Expr} (hb : b.referencesDuals = false)
    (ha : a.referencesDuals = false) : (Tree.substitute p a b).referencesDuals = false :=
  Tree.anyNode_eq_false.2 <| Tree.Everywhere.substitute unreferenced_shallow (Tree.anyNode_eq_false.1 ha)
    (Tree.anyNode_eq_false.1 hb)

theorem readsEvaluator_of_unreferenced {t : Expr} (h : t.refersToDual = false) :
    t.readsEvaluator κ = false := by
  cases t with
  | member r m =>
      have hm : m.declaring.wrapper? = none := by simpa using (Bool.or_eq_false_iff.1 h).2
      simp [Tree.readsEvaluator, isEvaluator_of_plain hm]
  | _ => rfl

theorem mentions_of_unreferenced {t : Expr} (h : t.refersToDual = false) : t.mentions κ = false := by
  have hmember : ∀ {m : Member Getter}, m.ty.wrapper? = none ∧ m.declaring.wrapper? = none →
      (m.ty.declares (.dual κ) || isEvaluator κ m) = false := fun ⟨hty, hdeclaring⟩ =>
    Bool.or_eq_false_iff.2 ⟨declares_of_none hty _, isEvaluator_of_plain hdeclaring⟩
  cases t with
  | literal v ty => exact declares_of_none (by simpa [Tree.refersToDual] using h) _
  | staticMember m | member target m => exact hmember (by simpa [Tree.refersToDual] using h)
  | staticCall m args | call target m args =>
      exact isEvaluateMethod_of_plain (by simpa [Tree.refersToDual] using (Bool.or_eq_false_iff.1 h).2)
  | unary op operand via ty =>
      cases op <;> cases via <;> try rfl
      rename_i m
      exact declares_of_none (show m.declaring.wrapper? = none by simpa [Tree.refersToDual] using h) _
  | param | binary | lambda | invoke | conditional => rfl

/-- Inlining rebuilds a node without references, unless it applies an evaluator. -/
theorem inlining_fills {t u : Expr} (ht : t.refersToDual = false)
    (hcallee : ∀ c a, t = .invoke c [a] → c.readsEvaluator κ = false) (hhead : u.head = t.head)
    (hparts : List.Forall₂ (fun c c' => Exactly host I (inlining κ c) c') t.children u.children) :
    Exactly host I (inlining κ t) u :=
  filled_exactly (fun _ => (inlining_rebuilds (mentions_of_unreferenced ht) hcallee).trans (rebuild_node t _))
    hhead hparts

/-- Where the pass makes trees without references of the direct subtrees, it makes one of the tree. -/
def Reduces (host : Host) (I : Store → Prop) (κ : DualKind) (t : Expr) : Prop :=
  ∃ r : Expr, r.referencesDuals = false ∧ Exactly host I (inlining κ t) r

namespace Inlinable

variable (hforms : Inlinable host I form D) {d w : Dual}

include hforms

/-- A dual handed on becomes its lambda. -/
theorem unfolded (hd : D d) : Exactly host I (fun E => DualForm.unfolded E d) (form d).tree :=
  unfolded_unreferenced (hforms.tree d hd) (hforms.unreferenced d hd)

/-- An evaluation becomes the body with the rewritten argument, unless this is an evaluator that is applied. -/
theorem evaluation (hd : D d) (byMethod : Bool) {p : Param} (hp : (form d).params = [p]) {a m : Expr}
    (happlied : a.readsEvaluator d.kind = true → (form d).body.Unapplied p)
    (ha : Exactly host I (inlining d.kind a) m) :
    Exactly host I (inlining d.kind (d.evaluation byMethod a)) (Tree.substitute p m (form d).body) := by
  refine Exactly.congr (fun E => run_evaluation_same byMethod a) ?_
  obtain ⟨q, hq, hundeclared⟩ := hforms.single d hd
  obtain rfl : p = q := List.singleton_inj.1 (hp.symm.trans hq)
  have htree := hforms.tree d hd
  rw [show form d = ⟨[p], (form d).body⟩ by rw [← hp]] at htree
  exact spliced_substituted htree (hforms.unreferenced d hd) hundeclared happlied ha

/-- A body with the evaluator of a dual for its parameter becomes a tree without references, if what it hands to the
evaluator is not the evaluator itself, or this becomes such a tree. -/
theorem applied (hw : D w) {p : Param} {b : Expr} (hb : b.referencesDuals = false)
    (hself : b.Everywhere fun u => u = .invoke (.param p) [.param p] →
      Reduces host I w.kind (w.invoked w.functionRead)) :
    Reduces host I w.kind (Tree.substitute p w.functionRead b) := by
  have hplain := Tree.anyNode_eq_false.1 hb
  have hfree : b.Free w.kind := hplain.imp fun _ h => mentions_of_unreferenced h
  refine hfree.replaced (p := p) (a := w.functionRead)
    (motive := fun b => (b.Everywhere fun u => u.refersToDual = false) →
      (b.Everywhere fun u => u = .invoke (.param p) [.param p] → Reduces host I w.kind (w.invoked w.functionRead)) →
      Reduces host I w.kind (Tree.substitute p w.functionRead b))
    (fun _ _ => ?_) (fun x _ ih hplain hself => ?_) (fun t ht hrebuild hparts ih hplain hself => ?_) hplain hself
  · rw [show Tree.substitute p w.functionRead (.param p) = w.functionRead from if_pos rfl]
    exact ⟨(form w).tree, Tree.anyNode_eq_false.2 (Tree.everywhere_single rfl rfl
      (Tree.anyNode_eq_false.1 (hforms.unreferenced w hw))),
      Exactly.congr (fun E => run_functionRead_same w) (hforms.unfolded hw)⟩
  · have hx : x ∈ Tree.children (.invoke (.param p) [x] : Expr) :=
      List.mem_cons_of_mem _ (List.mem_singleton.2 rfl)
    have hinvoked : Tree.substitute p w.functionRead (.invoke (.param p) [x]) =
        w.invoked (Tree.substitute p w.functionRead x) := by
      simp [Tree.substitute, Tree.substituteAll, Dual.invoked]
    rw [hinvoked]
    by_cases hxp : x = .param p
    · rw [hxp, show Tree.substitute p w.functionRead (.param p) = w.functionRead from if_pos rfl]
      exact hself.here (by rw [hxp])
    obtain ⟨r, hr, hrun⟩ := ih (hplain.child hx) (hself.child hx)
    obtain ⟨q, hq, -⟩ := hforms.single w hw
    refine ⟨_, unreferenced_substitute (hforms.unreferenced w hw) hr,
      hforms.evaluation hw false hq (fun hread => ?_) hrun⟩
    exact absurd (Tree.readsEvaluator_of_substitute (hplain.child hx).here hread).1 hxp
  · have hchildren : ∀ c ∈ (Tree.substitute p w.functionRead t).children, Reduces host I w.kind c := by
      rw [hparts]
      exact List.forall_mem_map.2 fun u hu => ih u hu (hplain.child hu) (hself.child hu)
    choose! r hr hrun using hchildren
    obtain ⟨hhead, hrewritten⟩ := Tree.fill_spec (t := Tree.substitute p w.functionRead t) (List.length_map r)
    refine ⟨_, Tree.anyNode_eq_false.2 (Tree.everywhere_iff.2 ⟨?_, fun c hc => ?_⟩),
      filled_exactly (fun E => (hrebuild E).trans (rebuild_node _ _)) hhead ?_⟩
    · rw [refersToDual_head hhead, refersToDual_substitute ht]
      exact hplain.here
    · rw [hrewritten] at hc
      obtain ⟨u, hu, rfl⟩ := List.mem_map.1 hc
      exact Tree.anyNode_eq_false.1 (hr u hu)
    · rw [hrewritten, List.forall₂_map_right_iff]
      exact List.forall₂_same.2 hrun

/-- The evaluation of a dual on the evaluator of another one of the same kind, where one of the two lambdas does not
apply its parameter to itself. -/
theorem evaluation_read (hd : D d) (hw : D w) (hkind : w.kind = d.kind)
    (hcalm : (form d).Calm ∨ (form w).Calm) (byMethod : Bool) :
    Reduces host I d.kind (d.evaluation byMethod w.functionRead) := by
  have hcalled : ∀ {d : Dual} (byMethod : Bool), D d → w.kind = d.kind →
      (∀ p, (form d).params = [p] → (form d).body.Everywhere fun u => u = .invoke (.param p) [.param p] →
        Reduces host I w.kind (w.invoked w.functionRead)) →
        Reduces host I d.kind (d.evaluation byMethod w.functionRead) := by
    intro d byMethod hd hkind hself
    obtain ⟨p, hp, -⟩ := hforms.single d hd
    obtain ⟨r, hr, hrun⟩ := hforms.applied hw (hforms.unreferenced d hd) (hself p hp)
    refine ⟨r, hr, Exactly.congr (fun E => run_evaluation_same byMethod _) ?_⟩
    refine (hforms.tree d hd).bind (f := fun E l => do
      E.rewrite (.inlining d.kind) (← Act.lift (l.applied w.functionRead))) ?_
    refine (Exactly.lift (Lambda.applied_ok.2 ⟨p, hp, rfl⟩)).bind (f := fun E t => E.rewrite _ t) ?_
    exact rewrite_exactly (hkind ▸ hrun)
  by_cases hd' : (form d).Calm
  · exact hcalled byMethod hd hkind fun p hp => (hd' p hp).imp fun u hu h => absurd h hu
  · have hw' := hcalm.resolve_left hd'
    have hself : Reduces host I w.kind (w.invoked w.functionRead) :=
      hcalled false hw rfl fun p hp => (hw' p hp).imp fun u hu h => absurd h hu
    exact hcalled byMethod hd hkind fun p hp =>
      (Tree.anyNode_eq_false.1 (hforms.unreferenced d hd)).imp fun u _ _ => hself

end Inlinable

/-! ## Both orders -/

/-- Both passes over a tree, and what each makes of the result of the other. -/
structure Diamond (host : Host) (I : Store → Prop) (form : Dual → Lam) (κ κ' : DualKind)
    (t m m' u : Expr) : Prop where
  left : Exactly host I (inlining κ t) m
  right : Exactly host I (inlining κ' t) m'
  leftRight : Exactly host I (inlining κ' m) u
  rightLeft : Exactly host I (inlining κ m') u
  bareLeft : m.readsEvaluator κ' = true → Bares form κ t
  bareRight : m'.readsEvaluator κ = true → Bares form κ' t

theorem Diamond.symm {t m m' u : Expr} (h : Diamond host I form κ κ' t m m' u) :
    Diamond host I form κ' κ t m' m u :=
  ⟨h.right, h.left, h.rightLeft, h.leftRight, h.bareRight, h.bareLeft⟩

theorem functionRead_reads (w : Dual) : w.functionRead.readsEvaluator w.kind = true := by
  show (isEvaluator w.kind (Dual.evaluator w.kind w.source w.result) && true) = true
  rw [isEvaluator_evaluator, decide_eq_true rfl]
  rfl

theorem functionRead_injective : Function.Injective Dual.functionRead := fun _ _ h => by
  injection (Tree.literal.inj (Tree.member.inj h).1).1

/-- An evaluator read among direct references. -/
theorem Direct.read {t : Expr} (ht : Direct D t) (h : t.readsEvaluator κ = true) :
    ∃ w, D w ∧ w.kind = κ ∧ t = w.functionRead := by
  cases ht with
  | plain hrefers => rw [readsEvaluator_of_unreferenced hrefers] at h; cases h
  | literal => cases h
  | @handed w byConversion hw =>
      cases byConversion with
      | true => cases h
      | false =>
          have hread := (Bool.and_eq_true_iff.1 h).1
          rw [isEvaluator_evaluator] at hread
          exact ⟨w, hw, of_decide_eq_true hread, rfl⟩
  | evaluation byMethod => cases byMethod <;> cases h

theorem sequence_exactly {t m u : Expr} (hfirst : Exactly host I (inlining κ t) m)
    (hsecond : Exactly host I (inlining κ' m) u) :
    Exactly host I (fun E => Pass.run E (.sequence [.dual (.inlining κ), .dual (.inlining κ')]) t) u :=
  hfirst.bind (f := fun E t => Pass.runAll E [.dual (.inlining κ')] t) <|
    hsecond.bind (f := fun E t => Pass.runAll E [] t) (Exactly.pure _)

/-- One of the two kinds is that of the dual. -/
theorem diamond_of_kind {t : Expr} (d : Dual) (h : ∀ κ κ', d.kind = κ → κ ≠ κ' →
    ∃ m m' u, Diamond host I form κ κ' t m m' u) (hne : κ ≠ κ') : ∃ m m' u, Diamond host I form κ κ' t m m' u := by
  have hkinds : d.kind = κ ∨ d.kind = κ' := by
    cases hkind : d.kind <;> cases κ <;> cases κ' <;> simp_all
  rcases hkinds with hkind | hkind
  · exact h κ κ' hkind hne
  · obtain ⟨m, m', u, hd⟩ := h κ' κ hkind hne.symm
    exact ⟨m', m, u, hd.symm⟩

/-- A node over other subtrees that is an application to one argument was one before. -/
theorem invoke_of_head {t v c' a' : Expr} {f : Expr → Expr} (hhead : v.head = t.head)
    (hparts : v.children = t.children.map f) (h : v = .invoke c' [a']) :
    ∃ c a, t = .invoke c [a] ∧ c' = f c := by
  subst h
  cases t with
  | invoke c args =>
      match args, hparts with
      | [a], hparts => exact ⟨c, a, rfl, (List.cons.inj hparts).1⟩
      | [], hparts => cases (List.cons.inj hparts).2
      | _ :: _ :: _, hparts => cases (List.cons.inj (List.cons.inj hparts).2).2
  | _ => cases hhead

/-- A node without references over rewritten subtrees. -/
theorem inlining_over {t v u : Expr} {f g : Expr → Expr} (ht : t.refersToDual = false)
    (hread : ∀ c a, t = .invoke c [a] → (f c).readsEvaluator κ = false)
    (hv : v.head = t.head ∧ v.children = t.children.map f) (hu : u.head = t.head ∧ u.children = t.children.map g)
    (h : ∀ c ∈ t.children, Exactly host I (inlining κ (f c)) (g c)) : Exactly host I (inlining κ v) u := by
  refine inlining_fills (by rw [refersToDual_head hv.1, ht]) (fun c' a' h' => ?_) (hu.1.trans hv.1.symm) ?_
  · obtain ⟨c, a, rfl, rfl⟩ := invoke_of_head hv.1 hv.2 h'
    exact hread c a rfl
  · rw [hv.2, hu.2, List.forall₂_map_left_iff, List.forall₂_map_right_iff]
    exact List.forall₂_same.2 h

/-- Both passes work on the subtrees of a node without references. -/
theorem plain_diamond {t : Expr} (hrefers : t.refersToDual = false)
    (hread : ∀ kind c a, t = .invoke c [a] → c.readsEvaluator kind = false)
    (hbare : ∀ kind c a, t = .invoke c [a] → ¬ Bares form kind c)
    (hparts : ∀ c ∈ t.children, ∃ m m' u, Diamond host I form κ κ' c m m' u) :
    ∃ m m' u, Diamond host I form κ κ' t m m' u := by
  choose! m m' u h using hparts
  have hfill : ∀ f : Expr → Expr, ∃ v : Expr, v.head = t.head ∧ v.children = t.children.map f := fun f =>
    ⟨_, Tree.fill_spec (List.length_map ..)⟩
  have ht : t.head = t.head ∧ t.children = t.children.map id := ⟨rfl, (List.map_id _).symm⟩
  obtain ⟨tm, hm⟩ := hfill m
  obtain ⟨tm', hm'⟩ := hfill m'
  obtain ⟨tu, hu⟩ := hfill u
  have hcallee : ∀ {c a}, t = .invoke c [a] → c ∈ t.children := by
    rintro c a rfl
    exact List.mem_cons_self ..
  have hunread : ∀ {v : Expr} {kind : DualKind}, v.head = t.head → v.readsEvaluator kind = false := fun hv =>
    readsEvaluator_of_unreferenced (by rw [refersToDual_head hv, hrefers])
  refine ⟨tm, tm', tu, inlining_over hrefers (hread κ) ht hm fun c hc => (h c hc).left,
    inlining_over hrefers (hread κ') ht hm' fun c hc => (h c hc).right,
    inlining_over hrefers (fun c a ha => ?_) hm hu fun c hc => (h c hc).leftRight,
    inlining_over hrefers (fun c a ha => ?_) hm' hu fun c hc => (h c hc).rightLeft,
    fun hr => absurd ((hunread hm.1).symm.trans hr) Bool.false_ne_true,
    fun hr => absurd ((hunread hm'.1).symm.trans hr) Bool.false_ne_true⟩
  · exact Bool.eq_false_iff.2 fun hr => hbare κ c a ha ((h c (hcallee ha)).bareLeft hr)
  · exact Bool.eq_false_iff.2 fun hr => hbare κ' c a ha ((h c (hcallee ha)).bareRight hr)

section Orders

variable (hforms : Inlinable host I form D)

include hforms

/-- A dual that stands for itself becomes its lambda in the pass for its kind. -/
theorem standing_diamond {d : Dual} (hd : D d) (hkind : d.kind = κ) (hne : κ ≠ κ') {t : Expr}
    (hsame : ∀ E : Engine, (DualPass.inlining d.kind).run E t = unfolded E d)
    (hother : ∀ E : Engine, (DualPass.inlining κ').run E t = pure t)
    (hread : t.readsEvaluator κ = true → t = d.functionRead) :
    Diamond host I form κ κ' t (form d).tree t (form d).tree := by
  subst hkind
  have hsettled : (form d).tree.Settled := Tree.settled_lambda (hforms.unreferenced d hd)
  have hleft : Exactly host I (inlining d.kind t) (form d).tree := Exactly.congr hsame (hforms.unfolded hd)
  exact ⟨hleft, Exactly.congr hother (Exactly.pure t), hsettled.exactly, hleft, (fun h => by cases h),
    fun h => hread h ▸ .read hne⟩

/-- The evaluation of a dual in the pass for its kind and in the other one. -/
theorem evaluation_diamond {d : Dual} (hd : D d) (hkind : d.kind = κ) (hne : κ ≠ κ') (byMethod : Bool) {a : Expr}
    (ha : Direct D a) (hapart : Apart form (d.evaluation byMethod a))
    (hdiamond : ∃ m m' u, Diamond host I form κ κ' a m m' u) :
    ∃ m m' u, Diamond host I form κ κ' (d.evaluation byMethod a) m m' u := by
  subst hkind
  obtain ⟨m, m', u, h⟩ := hdiamond
  obtain ⟨p, hp, hundeclared⟩ := hforms.single d hd
  have hbody := hforms.unreferenced d hd
  have hother : ∀ {x y : Expr}, Exactly host I (inlining κ' x) y →
      Exactly host I (inlining κ' (d.evaluation byMethod x)) (d.evaluation byMethod y) := fun hxy =>
    evaluation_exactly (fun hpass => hne (by cases hpass; rfl)) byMethod hxy
  have hunread : ∀ x : Expr, (d.evaluation byMethod x).readsEvaluator d.kind = false := fun x => by
    cases byMethod <;> rfl
  -- Where the body does not apply an evaluator, each pass works on the argument alone.
  have happart : (∀ kind, kind = d.kind ∨ kind = κ' → ¬ (form d).body.Unapplied p → ¬ Bares form kind a) →
      ∃ m m' u, Diamond host I form d.kind κ' (d.evaluation byMethod a) m m' u := by
    intro hbares
    have hunapplied : ∀ kind, kind = d.kind ∨ kind = κ' → Bares form kind a → (form d).body.Unapplied p :=
      fun kind hk hbare => by_contra fun hnot => hbares kind hk hnot hbare
    refine ⟨Tree.substitute p m (form d).body, d.evaluation byMethod m', Tree.substitute p u (form d).body,
      hforms.evaluation hd byMethod hp (fun hread => ?_) h.left, hother h.right,
      run_substituted hbody hundeclared (fun k hk hread => ?_) h.leftRight,
      hforms.evaluation hd byMethod hp (fun hread => ?_) h.rightLeft, fun hread => ?_, fun hread => ?_⟩
    · obtain ⟨w, -, hw, rfl⟩ := ha.read hread
      exact hunapplied κ' (.inr rfl) (.read (hw ▸ hne))
    · cases hk
      exact hunapplied d.kind (.inl rfl) (h.bareLeft hread)
    · exact hunapplied κ' (.inr rfl) (h.bareRight hread)
    · obtain ⟨hparam, hread⟩ := Tree.readsEvaluator_of_substitute (Tree.anyNode_eq_false.1 hbody).here hread
      exact .passed byMethod rfl hp hparam (h.bareLeft hread)
    · rw [hunread] at hread
      cases hread
  rcases hapart.evaluated d byMethod a rfl with hunapplied | hbares | ⟨w, rfl, hw, hcalm⟩
  · exact happart fun kind _ hnot => absurd (hunapplied p hp) hnot
  · exact happart fun kind _ _ => hbares kind
  · -- The evaluator is of the same kind: all is done by the pass for this kind.
    have hDw : D w := by
      obtain ⟨v, hv, -, hread⟩ := ha.read (functionRead_reads w)
      rwa [functionRead_injective hread]
    obtain ⟨r, hr, hrun⟩ := hforms.evaluation_read hd hDw hw hcalm byMethod
    have hkept : Exactly host I (inlining κ' w.functionRead) w.functionRead :=
      Exactly.congr (fun E => run_functionRead_other fun hpass => hne (by cases hpass; exact hw.symm))
        (Exactly.pure _)
    refine ⟨r, d.evaluation byMethod w.functionRead, r, hrun, hother hkept,
      (Tree.settled_of_unreferenced hr).exactly, hrun, fun hread => ?_, fun hread => ?_⟩
    · rw [readsEvaluator_of_unreferenced (Tree.anyNode_eq_false.1 hr).here] at hread
      cases hread
    · rw [hunread] at hread
      cases hread

/-- **Both passes meet** on trees of direct references. -/
theorem diamond {t : Expr} (ht : Direct D t) (hapart : t.Everywhere (Apart form)) (hne : κ ≠ κ') :
    ∃ m m' u, Diamond host I form κ κ' t m m' u := by
  induction ht generalizing κ κ' with
  | @plain t hrefers hinvoked hchildren ih =>
      refine plain_diamond hrefers ?_ (fun kind c a h => hapart.here.applied c a h (fun d => hinvoked d a) kind)
        fun c hc => ih c hc (hapart.child hc) hne
      rintro kind c a rfl
      refine Bool.eq_false_iff.2 fun h => ?_
      obtain ⟨w, -, -, rfl⟩ := (hchildren c (List.mem_cons_self ..)).read h
      exact hinvoked w a rfl
  | @literal d hd =>
      refine diamond_of_kind d (fun κ κ' hkind hne => ⟨_, _, _, standing_diamond hforms hd hkind hne
        (fun E => run_literal_same d) (fun E => run_literal_other fun hpass => hne ?_) fun h => by cases h⟩) hne
      cases hpass
      exact hkind.symm
  | @handed d byConversion hd =>
      refine diamond_of_kind d (fun κ κ' hkind hne => ⟨_, _, _, standing_diamond hforms hd hkind hne
        (fun E => run_handed_same byConversion) (fun E => run_handed_other (fun hpass => hne ?_) byConversion)
        fun h => ?_⟩) hne
      · cases hpass
        exact hkind.symm
      · cases byConversion with
        | true => cases h
        | false => rfl
  | @evaluation d a byMethod hd ha ih =>
      refine diamond_of_kind d (fun κ κ' hkind hne => evaluation_diamond hforms hd hkind hne byMethod ha hapart.here
        (ih (hapart.child ?_) hne)) hne
      cases byMethod <;> exact List.mem_cons_of_mem _ (List.mem_singleton.2 rfl)

/-- **The order of the inlining passes does not matter.** Let the only references of a tree to duals be literals,
evaluator reads, conversions and evaluations of duals whose tree forms have no references and declare their
parameter once. If nothing that the tree applies, or hands to a lambda that applies it, is made an evaluator by
inlining the other kind, both orders give the same tree. -/
theorem inlining_commutes {e : Expr} (he : Direct D e) (hapart : e.Everywhere (Apart form)) :
    ∃ u, Exactly host I (fun E => Pass.run E (.sequence [.dual (.inlining .specification),
        .dual (.inlining .projection)]) e) u ∧
      Exactly host I (fun E => Pass.run E (.sequence [.dual (.inlining .projection),
        .dual (.inlining .specification)]) e) u := by
  obtain ⟨m, m', u, h⟩ := diamond hforms he hapart
    (show DualKind.specification ≠ .projection by decide)
  exact ⟨u, sequence_exactly h.left h.leftRight, sequence_exactly h.right h.rightLeft⟩

end Orders

/-! ## An evaluator that is applied -/

namespace Crossed

/-- A predicate as a parameter. -/
def f : Param := ⟨3, "f", .func [.int] .bool⟩

/-- `f => f(3)`, as a projection. -/
def atThree : Dual :=
  ⟨3, .projection, .func [.int] .bool, .bool, .lambda ⟨[f], .invoke (.param f) [Tree.constant (.int 3)]⟩⟩

def duals : List Dual := [Removed.successor, Removed.positive, atThree]

theorem holds : Holds Dual.raw (· ∈ duals) (.publishing duals) := holds_publishing (by decide)

/-- A property of the nodes of the three bodies. -/
theorem everywhere {q : Expr → Prop} (hleaf : ∀ t : Expr, t.children = [] → t.refersToDual = false → q t)
    (happlied : q (.invoke (.param f) [Tree.constant (.int 3)])) (hoperation : ∀ op a b, q (Tree.operation op a b)) :
    ∀ d ∈ duals, (Dual.raw d).body.Everywhere q := by
  have hpair : ∀ {t a b : Expr}, q t → t.children = [a, b] → a.children = [] → b.children = [] →
      a.refersToDual = false → b.refersToDual = false → t.Everywhere q := fun ht hparts ha hb ha' hb' =>
    Tree.everywhere_pair ht hparts (Tree.everywhere_leaf (hleaf _ ha ha') ha)
      (Tree.everywhere_leaf (hleaf _ hb hb') hb)
  intro d hd
  simp only [duals, List.mem_cons, List.not_mem_nil, or_false] at hd
  rcases hd with rfl | rfl | rfl
  · exact hpair (hoperation _ _ _) rfl rfl rfl rfl rfl
  · exact hpair (hoperation _ _ _) rfl rfl rfl rfl rfl
  · exact hpair happlied rfl rfl rfl rfl rfl

theorem inlinable (host : Host) :
    Inlinable host (Holds Dual.raw (· ∈ duals)) Dual.raw (· ∈ duals) where
  tree d hd := tree_of_published fun s hs => hs d hd
  single d hd := by
    obtain ⟨p, hp⟩ : ∃ p, (Dual.raw d).params = [p] := by
      simp only [duals, List.mem_cons, List.not_mem_nil, or_false] at hd
      rcases hd with rfl | rfl | rfl <;> exact ⟨_, rfl⟩
    refine ⟨p, hp, everywhere (fun t ht _ ps b h => ?_) (fun ps b h => by cases h) (fun op a b ps b' h => by cases h)
      d hd⟩
    rw [h] at ht
    cases ht
  unreferenced d hd := Tree.anyNode_eq_false.2 <|
    everywhere (fun t _ ht => ht) rfl (fun op a b => rfl) d hd

end Crossed

open Crossed Removed in
/-- The condition on what is applied is needed: the evaluator of `z => z > 0`, handed to `f => f(3)`, is inlined
where it is applied only if projections are inlined first. -/
theorem inlining_order :
    let host := Registry.empty.host
    let I := Holds Dual.raw (· ∈ Crossed.duals)
    let e := Crossed.atThree.invoked positive.functionRead
    (∃ s, I s) ∧ Inlinable host I Dual.raw (· ∈ Crossed.duals) ∧ Direct (· ∈ Crossed.duals) e ∧
      ∃ u v, Exactly host I (fun E => Pass.run E (.sequence [.dual (.inlining .specification),
          .dual (.inlining .projection)]) e) u ∧
        Exactly host I (fun E => Pass.run E (.sequence [.dual (.inlining .projection),
          .dual (.inlining .specification)]) e) v ∧ Tree.compare u v = false := by
  have hatThree : Crossed.atThree ∈ Crossed.duals := by simp [Crossed.duals]
  have hpositive : positive ∈ Crossed.duals := by simp [Crossed.duals]
  have hforms := inlinable Registry.empty.host
  have hthree : (Tree.constant (.int 3) : Expr).Settled :=
    Tree.settled_of_unreferenced (constant_free 3).unreferenced
  have hlambda : (Dual.raw positive).tree.Settled := Tree.settled_lambda (hforms.unreferenced _ hpositive)
  have hread : Exactly Registry.empty.host (Holds Dual.raw (· ∈ Crossed.duals))
      (inlining .specification positive.functionRead) (Dual.raw positive).tree :=
    Exactly.congr (fun E => run_functionRead_same positive) (hforms.unfolded hpositive)
  have hkept : Exactly Registry.empty.host (Holds Dual.raw (· ∈ Crossed.duals))
      (inlining .projection positive.functionRead) positive.functionRead :=
    Exactly.congr (fun E => run_functionRead_other (by decide)) (Exactly.pure _)
  have hbody : ∀ {a m : Expr}, a.readsEvaluator .projection = false →
      Exactly Registry.empty.host (Holds Dual.raw (· ∈ Crossed.duals)) (inlining .projection a) m →
      Exactly Registry.empty.host (Holds Dual.raw (· ∈ Crossed.duals))
        (inlining .projection (Crossed.atThree.invoked a)) (.invoke m [Tree.constant (.int 3)]) := fun hnone ha =>
    hforms.evaluation hatThree false rfl (fun h => absurd (hnone.symm.trans h) Bool.false_ne_true) ha
  refine ⟨⟨_, Crossed.holds⟩, hforms, .evaluation false hatThree (.handed false hpositive),
    .invoke (Dual.raw positive).tree [Tree.constant (.int 3)],
    Tree.operation .greater (Tree.constant (.int 3)) (Tree.constant (.int 0)), ?_, ?_, rfl⟩
  · exact sequence_exactly (evaluation_exactly (by decide) false hread) (hbody rfl hlambda.exactly)
  · exact sequence_exactly (hbody rfl hkept)
      (hforms.evaluation hpositive false rfl (fun h => by cases h) hthree.exactly)

theorem evaluation_injective {d d' : Dual} {byMethod byMethod' : Bool} {a a' : Expr}
    (h : d.evaluation byMethod a = d'.evaluation byMethod' a') : d = d' ∧ a = a' := by
  cases byMethod <;> cases byMethod'
  · obtain ⟨hread, ha⟩ := Tree.invoke.inj h
    exact ⟨functionRead_injective hread, (List.cons.inj ha).1⟩
  · cases h
  · cases h
  · obtain ⟨hliteral, -, ha⟩ := Tree.call.inj h
    exact ⟨by injection (Tree.literal.inj hliteral).1, (List.cons.inj ha).1⟩

/-- A node that is no application. -/
theorem apart_other {t : Expr} (hinvoke : ∀ c a, t ≠ .invoke c [a]) (hcall : ∀ c m a, t ≠ .call c m [a]) :
    Apart form t :=
  ⟨fun c a h => absurd h (hinvoke c a), fun d byMethod a h => by
    cases byMethod with
    | false => exact absurd h (hinvoke _ _)
    | true => exact absurd h (hcall _ _ _)⟩

theorem apart_leaf {t : Expr} (ht : t.children = []) : t.Everywhere (Apart form) :=
  Tree.everywhere_leaf (apart_other (fun c a h => by rw [h] at ht; cases ht)
    fun c m a h => by rw [h] at ht; cases ht) ht

theorem apart_handed (d : Dual) (byConversion : Bool) : (d.handed byConversion).Everywhere (Apart form) := by
  cases byConversion <;>
    exact Tree.everywhere_single (apart_other (fun c a h => by cases h) fun c m a h => by cases h) rfl (apart_leaf rfl)

/-- An evaluation on what no pass makes an evaluator, or by a lambda that does not apply it. -/
theorem apart_evaluation {d : Dual} {a : Expr} (byMethod : Bool)
    (h : (∀ p, (form d).params = [p] → (form d).body.Unapplied p) ∨ ∀ kind, ¬ Bares form kind a)
    (ha : a.Everywhere (Apart form)) : (d.evaluation byMethod a).Everywhere (Apart form) := by
  have hnode : Apart form (d.evaluation byMethod a) := by
    refine ⟨fun c x hinvoke hnone => ?_, fun d' byMethod' a' hd => ?_⟩
    · cases byMethod with
      | true => cases hinvoke
      | false => exact absurd (by rw [hinvoke, ← (Tree.invoke.inj hinvoke).1]; rfl) (hnone d)
    · obtain ⟨rfl, rfl⟩ := evaluation_injective hd
      exact h.imp_right .inl
  cases byMethod with
  | false => exact Tree.everywhere_pair hnode rfl (apart_handed d false) ha
  | true => exact Tree.everywhere_pair hnode rfl (apart_leaf rfl) ha

open Crossed Removed in
/-- `positive.is_satisfied_by(successor.evaluate(3)) ? atThree.evaluate((int → bool)positive) : false` becomes
`3 + 1 > 0 ? (z => z > 0)(3) : false` in both orders. -/
theorem inlining_commutes_nested :
    let host := Registry.empty.host
    let I := Holds Dual.raw (· ∈ Crossed.duals)
    let e := Tree.conditional
      (positive.evaluation true (successor.evaluation false (Tree.constant (.int 3))))
      (Crossed.atThree.evaluation false positive.converted) (Tree.constant (.bool false))
    (∃ s, I s) ∧ ∃ u, Exactly host I (fun E => Pass.run E (.sequence [.dual (.inlining .specification),
        .dual (.inlining .projection)]) e) u ∧
      Exactly host I (fun E => Pass.run E (.sequence [.dual (.inlining .projection),
        .dual (.inlining .specification)]) e) u := by
  have hatThree : Crossed.atThree ∈ Crossed.duals := by simp [Crossed.duals]
  have hpositive : positive ∈ Crossed.duals := by simp [Crossed.duals]
  have hsuccessor : successor ∈ Crossed.duals := by simp [Crossed.duals]
  refine ⟨⟨_, Crossed.holds⟩, inlining_commutes (inlinable _) ?_ ?_⟩
  · have hconstant : ∀ {t : Expr}, t.refersToDual = false → t.children = [] → Direct (· ∈ Crossed.duals) t :=
      fun {t} ht hleaf => .plain ht (fun d a h => by rw [h] at hleaf; cases hleaf) fun c hc => by
        rw [hleaf] at hc; cases hc
    refine .plain rfl (fun d a h => by cases h) fun c hc => ?_
    simp only [Tree.children, Tree.node, Node.children, List.mem_cons, List.not_mem_nil, or_false] at hc
    rcases hc with rfl | rfl | rfl
    · exact .evaluation true hpositive (.evaluation false hsuccessor (hconstant rfl rfl))
    · exact .evaluation false hatThree (.handed true hpositive)
    · exact hconstant rfl rfl
  · have hunapplied : ∀ {d : Dual} {p q : Param} {op : BinaryOp} {v : Int64},
        Dual.raw d = ⟨[p], Tree.operation op (.param p) (Tree.constant (.int v))⟩ →
          (Dual.raw d).params = [q] → (Dual.raw d).body.Unapplied q := fun h _ => by
      rw [h]
      exact Tree.everywhere_pair (fun a h => by cases h) rfl (Tree.everywhere_leaf (fun a h => by cases h) rfl)
        (Tree.everywhere_leaf (fun a h => by cases h) rfl)
    refine Tree.everywhere_iff.2 ⟨apart_other (fun c a h => by cases h) (fun c m a h => by cases h), fun c hc => ?_⟩
    simp only [Tree.children, Tree.node, Node.children, List.mem_cons, List.not_mem_nil, or_false] at hc
    rcases hc with rfl | rfl | rfl
    · exact apart_evaluation true (.inl fun p => hunapplied rfl)
        (apart_evaluation false (.inl fun p => hunapplied rfl) (apart_leaf rfl))
    · refine apart_evaluation false (.inr fun kind h => ?_) (apart_handed positive true)
      generalize ht : positive.converted = t at h
      cases h with
      | read => cases ht
      | passed byMethod => cases byMethod <;> cases ht
    · exact apart_leaf rfl

end DualForm
