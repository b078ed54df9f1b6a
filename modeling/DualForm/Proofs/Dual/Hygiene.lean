import DualForm.Proofs.Dual.Refinement

/-!
# When inlining below lambdas is hygienic

Duals may be handed to host code as functions. In tree forms these are lambdas, and putting an
argument in the place of a parameter does not stop at lambdas that declare this parameter again.
The condition is that a parameter read below such a lambda is replaced by another parameter only.

* `Dual.HygienicAt host s d a` — evaluating `d` on `a` respects declarations, as far as the tree
  form `d` has in `s` goes.
* `Hygienically host V ds s x` — `x` makes a dual from a lambda that may hand on earlier duals, or
  composes earlier duals, and every argument so put into a tree form respects declarations there.
* `Dual.Takes d p` — the tree form of `d` takes `p`; `Freshly host V ds s x` — the lambda has a
  parameter of its own, and no tree form is put where its parameter is declared.
* `Separate D d l` — which parameters the tree form `l` of `d` does not declare.

Principal results: `hygienicAt_of_run` — it is enough to look at one run;
`tree_refines_function_hygienic`, `tree_refines_function_fresh` — in families so made, tree forms
compute what duals compute; `history_fresh` — parameters of their own make arguments hygienic.
-/

namespace DualForm

variable {host : Host} {V : Vocabulary} {form : Dual → Lam} {ds : List Dual} {s t : Store}

/-- Putting the argument into the tree form respects declarations. -/
def Dual.HygienicAt (host : Host) (s : Store) (d : Dual) (a : Expr) : Prop :=
  ∀ n l t, (machine host n).tree d s = .ok l t → l.Hygienic a

/-- The ways to make a dual of a lambda that evaluates earlier duals and hands them on, or of
earlier duals by composition, with hygienic arguments. -/
def Hygienically (host : Host) (V : Vocabulary) (ds : List Dual) (s : Store) : Act Dual → Prop :=
  Assembles V (fun _ => True) (fun d a => d ∈ ds ∧ d.HygienicAt host s a) (· ∈ ds) fun outer inner =>
    outer ∈ ds ∧ inner ∈ ds ∧
      ∀ n l t, (machine host n).tree inner s = .ok l t → outer.HygienicAt host s l.body

/-- What is hygienic in the store is so for the tree form. -/
theorem Assembled.hygienic (h : Assembled host V form ds s) {d : Dual} (hd : d ∈ ds) {a : Expr}
    (ha : d.HygienicAt host s a) : (form d).Hygienic a := by
  obtain ⟨t, ⟨N, hN⟩, _⟩ := (h.tree hd).settles s h.published
  exact ha N _ t (hN N (Nat.le_refl _))

theorem history_hygienic (hV : V.Closed) (hhost : V.Respected host)
    (h : History (Hygienically host V) (Uses host V) ds s) : ∃ form, Assembled host V form ds s := by
  induction h with
  | start hs => exact ⟨fun _ => default, .start _ hs⟩
  | @make ds s t x d _ hx hd ih =>
      obtain ⟨form, h⟩ := ih
      have hcompose : ∀ outer inner, (outer ∈ ds ∧ inner ∈ ds ∧
          ∀ n l t, (machine host n).tree inner s = .ok l t → outer.HygienicAt host s l.body) →
          outer ∈ ds ∧ inner ∈ ds ∧ (form outer).Hygienic (form inner).body := by
        rintro outer inner ⟨houter, hinner, hyg⟩
        obtain ⟨u, ⟨N, hN⟩, _⟩ := (h.tree hinner).settles s h.published
        exact ⟨houter, hinner, h.hygienic houter (hyg N _ u (hN N (Nat.le_refl _)))⟩
      obtain ⟨o, l, hmakes, hnew, _⟩ := hx.newForm h.flat h.faithful
        (fun d a hd => ⟨hd.1, h.hygienic hd.1 hd.2⟩) (fun _ hd => hd) hcompose host
      exact ⟨extend form d l, h.make hnew hmakes hd⟩
  | between _ hst ih =>
      obtain ⟨form, h⟩ := ih
      exact ⟨form, h.uses hV hhost hst⟩

/-- A dual has one tree form, so that it is enough to look at the one of some run. -/
theorem hygienicAt_of_run (hV : V.Closed) (hhost : V.Respected host)
    (h : History (Hygienically host V) (Uses host V) ds s) {d : Dual} (hd : d ∈ ds) {n : Nat} {l : Lam}
    (hl : (machine host n).tree d s = .ok l t) {a : Expr} (ha : l.Hygienic a) :
    d.HygienicAt host s a := by
  obtain ⟨form, hassembled⟩ := history_hygienic hV hhost h
  have hform : ∀ k m u, (machine host k).tree d s = .ok m u → m = form d := fun k m u hm =>
    ((hassembled.tree hd).ensures k).result s m u hassembled.published hm
  intro k m u hm
  rw [hform k m u hm, ← hform n l t hl]
  exact ha

/-- **Hygienic inlining.** In every family of duals made of lambdas over host code, which may
evaluate earlier duals and hand them on as functions, and of compositions: as long as every
argument put into a tree form is a parameter, or the tree form does not read its parameter below a
lambda that declares it again, every dual has a tree form, and whatever evaluating the dual on
data returns, the tree form, compiled and called, returns as well. -/
theorem tree_refines_function_hygienic (hV : V.Closed) (hhost : V.Respected host)
    (h : History (Hygienically host V) (Uses host V) ds s) {d : Dual} (hd : d ∈ ds) :
    (∃ l t, Reaches host (fun E => E.tree d) s l t) ∧
      ∀ n v w t, V.data v → d.evaluate (machine host n) v s = .ok w t →
        ∃ u, Reaches host (fun E => d.evaluateTree E v) t w u := by
  obtain ⟨form, hassembled⟩ := history_hygienic hV hhost h
  exact hassembled.refines hV hhost hd

/-! ## Parameters of their own -/

/-- The tree form of the dual takes this parameter: that of its lambda, or of the dual applied
first. -/
inductive Dual.Takes : Dual → Param → Prop
  | lambda {d : Dual} {p : Param} {t : Expr} : d.origin = .lambda ⟨[p], t⟩ → d.Takes p
  | composed {d outer inner : Dual} {p : Param} : d.origin = .composed outer inner → inner.Takes p →
      d.Takes p

theorem takes_lambda {d : Dual} {l : Lam} (ho : d.origin = .lambda l) {p : Param} :
    d.Takes p → l.params = [p] := by
  intro h
  cases h with
  | lambda hp => rw [ho] at hp; cases hp; rfl
  | composed hp => rw [ho] at hp; cases hp

/-- The ways to make a dual of a lambda with a parameter of its own, that evaluates earlier duals
and hands them on, or of earlier duals by composition, where the outer tree form does not declare
the parameter that the inner one takes. -/
def Freshly (host : Host) (V : Vocabulary) (ds : List Dual) (s : Store) : Act Dual → Prop :=
  Assembles V (fun x => ∀ d ∈ ds, ¬ d.Takes x) (fun d _ => d ∈ ds) (· ∈ ds) fun outer inner =>
    outer ∈ ds ∧ inner ∈ ds ∧
      ∀ n l t q, (machine host n).tree outer s = .ok l t → inner.Takes q → l.body.Undeclared q

/-- The tree form `l` of `d` does not declare its parameter again, and declares none that no dual
with `D` takes. -/
structure Separate (D : Dual → Prop) (d : Dual) (l : Lam) : Prop where
  takes : ∀ p, l.params = [p] → d.Takes p
  own : ∀ p, l.params = [p] → l.body.Undeclared p
  others : ∀ q, (∀ e, D e → ¬ e.Takes q) → l.body.Undeclared q

variable {D F : Dual → Prop} {N : Param → Prop} {P : Dual → Dual → Prop}

theorem Separate.mono {D' : Dual → Prop} {d : Dual} {l : Lam} (h : Separate D d l)
    (hD : ∀ e, D e → D' e) : Separate D' d l :=
  ⟨h.takes, h.own, fun q hq => h.others q fun e he => hq e (hD e he)⟩

theorem Separate.hygienic {d : Dual} {l : Lam} (h : Separate D d l) (a : Expr) : l.Hygienic a :=
  .inr fun p hp => (h.own p hp).unshadowed

theorem Inlined.undeclared {b : Bool} {t u : Expr} {q : Param} (hflat : FlatForms form D)
    (hsep : ∀ d, D d → Separate D d (form d)) (hq : ∀ e, D e → ¬ e.Takes q)
    (h : Inlined V form D F (fun _ => True) b t u) : u.Undeclared q := by
  induction h with
  | node parts hbasic _ _ hhead hchildren _ ih =>
      refine Tree.everywhere_iff.2 ⟨fun ps b hb => absurd hb ((hbasic.shape hhead).2.1 ps b), ?_⟩
      intro c hc
      rw [hchildren] at hc
      obtain ⟨r, hr, rfl⟩ := List.mem_map.1 hc
      exact ih r hr
  | param => exact Tree.everywhere_iff.2 ⟨fun ps b h => (nomatch h), fun c hc => (nomatch hc)⟩
  | kept _ hkept => exact absurd trivial hkept
  | replaced _ _ _ hd hp _ _ ih =>
      exact ((hsep _ hd).own _ hp).inserted _ ((hsep _ hd).others q hq) ih
  | handedKept _ hkept => exact absurd trivial hkept
  | @handed d _ _ hd _ =>
      obtain ⟨p, hp⟩ := hflat.single d hd
      refine Tree.everywhere_single (fun ps b hb => ?_) rfl ((hsep d hd).others q hq)
      cases hb
      rw [hp]
      intro hmem
      rw [List.mem_singleton.1 hmem] at hq
      exact hq d hd ((hsep d hd).takes p hp)

/-- The tree form of the next dual is separate if its parameter is its own, and if compositions do
not put a tree form where its parameter is declared. -/
theorem Shapes.separate {o : Origin} {l : Lam} (h : Shapes V form D N F P o l) (hflat : FlatForms form D)
    (hsep : ∀ d, D d → Separate D d (form d)) (hN : ∀ x, N x → ∀ e, D e → ¬ e.Takes x)
    (hP : ∀ outer inner q, P outer inner → inner.Takes q → (form outer).body.Undeclared q) {d : Dual}
    (ho : d.origin = o) : Separate D d l := by
  cases h with
  | @lambda x t u hx hu =>
      refine ⟨fun p hp => ?_, fun p hp => ?_, fun q hq => hu.undeclared hflat hsep hq⟩
      · cases hp; exact .lambda ho
      · cases hp; exact hu.undeclared hflat hsep (hN x hx)
  | @composed outer inner p q hcompose houter hinner hp hq =>
      have htakes := (hsep inner hinner).takes q hq
      have hbody : ∀ {r}, (form outer).body.Undeclared r → (form inner).body.Undeclared r →
          (Tree.substitute p (form inner).body (form outer).body).Undeclared r := fun hr hr' => by
        rw [← Tree.inserted_renaming]
        exact ((hsep outer houter).own p hp).inserted _ hr hr'
      refine ⟨fun r hr => ?_, fun r hr => ?_, fun r hr => ?_⟩
      · cases hr; exact .composed ho htakes
      · cases hr; exact hbody (hP outer inner q hcompose htakes) ((hsep inner hinner).own q hq)
      · exact hbody ((hsep outer houter).others r hr) ((hsep inner hinner).others r hr)

/-- **Parameters of their own are enough,** as long as no composition puts a tree form where its
parameter is declared. -/
theorem history_fresh (hV : V.Closed) (hhost : V.Respected host)
    (h : History (Freshly host V) (Uses host V) ds s) :
    (∃ form, Assembled host V form ds s ∧ ∀ d ∈ ds, Separate (· ∈ ds) d (form d)) ∧
      History (Hygienically host V) (Uses host V) ds s := by
  induction h with
  | start hs => exact ⟨⟨fun _ => default, .start _ hs, by simp⟩, .start hs⟩
  | @make ds s t x d _ hx hd ih =>
      obtain ⟨⟨form, h, hsep⟩, hhistory⟩ := ih
      have htree : ∀ e ∈ ds, ∀ n l u, (machine host n).tree e s = .ok l u → l = form e :=
        fun e he n l u hl => ((h.tree he).ensures n).result s l u h.published hl
      -- Every tree form returned here is the one of the family, so it is enough that the family is hygienic.
      have hhygienic : ∀ e ∈ ds, ∀ a, e.HygienicAt host s a := by
        intro e he a n l u hl
        rw [htree e he n l u hl]
        exact (hsep e he).hygienic a
      refine ⟨?_, .make hhistory ?_ hd⟩
      · obtain ⟨o, l, hmakes, hnew, hshapes⟩ := hx.newForm h.flat h.faithful
          (fun e a he => ⟨he, (hsep e he).hygienic a⟩) (fun _ he => he)
          (fun outer inner hi => ⟨hi.1, hi.2.1, (hsep outer hi.1).hygienic _⟩) host
        have hcompose : ∀ outer inner q, (outer ∈ ds ∧ inner ∈ ds ∧ ∀ n l t q,
            (machine host n).tree outer s = .ok l t → inner.Takes q → l.body.Undeclared q) →
            inner.Takes q → (form outer).body.Undeclared q := by
          rintro outer inner q ⟨houter, _, hfree⟩ htakes
          obtain ⟨u, ⟨M, hM⟩, _⟩ := (h.tree houter).settles s h.published
          exact hfree M _ u q (hM M (Nat.le_refl _)) htakes
        have hnext : Separate (· ∈ ds) d l :=
          hshapes.separate h.flat hsep (fun _ hx => hx) hcompose (hmakes.made s d t hd).1
        refine ⟨extend form d l, h.make hnew hmakes hd, fun e he => ?_⟩
        rcases List.mem_cons.1 he with rfl | he
        · rw [extend_self]
          exact hnext.mono fun _ => List.mem_cons_of_mem _
        · rw [extend_older (h.older hmakes hd e he)]
          exact (hsep e he).mono fun _ => List.mem_cons_of_mem _
      · refine hx.imp (fun _ _ => trivial) (fun e a he => ⟨he, hhygienic e he a⟩) ?_
        rintro outer inner ⟨houter, hinner, _⟩
        exact ⟨houter, hinner, fun n l u _ => hhygienic outer houter _⟩
  | between _ hst ih =>
      obtain ⟨⟨form, h, hsep⟩, hhistory⟩ := ih
      exact ⟨⟨form, h.uses hV hhost hst, hsep⟩, .between hhistory hst⟩

/-- **Hygiene of parameters of their own.** In every family of duals made of lambdas over host
code with parameters of their own, which may evaluate earlier duals and hand them on as functions,
and of compositions that put no tree form where its parameter is declared: every dual has a tree
form, and whatever evaluating the dual on data returns, the tree form, compiled and called,
returns as well. -/
theorem tree_refines_function_fresh (hV : V.Closed) (hhost : V.Respected host)
    (h : History (Freshly host V) (Uses host V) ds s) {d : Dual} (hd : d ∈ ds) :
    (∃ l t, Reaches host (fun E => E.tree d) s l t) ∧
      ∀ n v w t, V.data v → d.evaluate (machine host n) v s = .ok w t →
        ∃ u, Reaches host (fun E => d.evaluateTree E v) t w u := by
  obtain ⟨⟨form, hassembled, _⟩, _⟩ := history_fresh hV hhost h
  exact hassembled.refines hV hhost hd

/-! ## A dual that hands on another one -/

namespace Handing

/-- Parameters of the lambdas. -/
def x : Param := ⟨0, "x", .int⟩
def y : Param := ⟨1, "y", .int⟩
def z : Param := ⟨2, "z", .int⟩

/-- `Host::apply`. -/
def apply : Method Invoker :=
  { declaring := .nominal "Host", name := "apply", params := [.func [.int] .int, .int], result := .int
    isStatic := true, invoker := .function ⟨0, 2, .host "apply" []⟩ }

/-- Scalars as data, and `Host::apply`, which takes a function first. -/
def vocabulary : Vocabulary where
  data v := v.isScalar = true
  host f fs := f = ⟨0, 2, .host "apply" []⟩ ∧ fs = [true, false]

/-- The dual of `x => x + 1`. -/
def successor : Dual :=
  ⟨0, .projection, .int, .int, .lambda ⟨[x], .operation .add (.param x) (Tree.constant (.int 1))⟩⟩

/-- The dual of `y => Host::apply(successor, y)`. -/
def applied : Dual :=
  ⟨1, .projection, .int, .int, .lambda ⟨[y], .staticCall apply [successor.functionRead, .param y]⟩⟩

/-- `z * 10`. -/
def tenfold : Expr := .operation .mul (.param z) (Tree.constant (.int 10))

/-- The dual of `z => applied(z * 10)`. -/
def dual : Dual := ⟨2, .projection, .int, .int, .lambda ⟨[z], applied.invoked tenfold⟩⟩

/-- The store after `n` of them have been made. -/
def store (n : Nat) : Store := { Store.initial with nextId := n }

theorem closed : vocabulary.Closed :=
  ⟨fun _ h => h, fun _ _ _ _ _ h => by cases h⟩

theorem respected (r : Registry) : vocabulary.Respected r.host := by
  rintro _ _ ⟨rfl, rfl⟩ I _ n args args' hargs
  cases hargs with
  | cons hf hargs =>
      cases hargs with
      | cons hv hargs =>
          cases hargs
          cases hf with
          | @func f g hfg =>
              obtain ⟨hdata, rfl⟩ := alike_false.1 hv
              cases n with
              | zero => exact Follows.exhausted
              | succ n => exact (hfg n _ hdata).step fun _ => rfl

/-- An operation on a parameter and a number. -/
theorem body_operation {C : Dual → Expr → Prop} {F : Dual → Prop} (op : BinaryOp) (p : Param)
    (hp : p.ty = .int) (k : Int64) :
    Body vocabulary C F false (.operation op (.param p) (Tree.constant (.int k))) := by
  refine .node [(false, .param p), (false, Tree.constant (.int k))] (.binary _ _ _) ?_ rfl ?_
  · rfl
  · intro q hq
    simp only [List.mem_cons, List.not_mem_nil, or_false] at hq
    rcases hq with rfl | rfl
    · exact .param (by rw [hp]; rfl)
    · exact .node [] (.literal _ rfl) rfl rfl (by simp)

theorem body_applied {C : Dual → Expr → Prop} :
    Body vocabulary C (· ∈ [successor]) false
      (.staticCall apply [successor.functionRead, .param y]) := by
  refine .node [(true, successor.functionRead), (false, .param y)] ?_ rfl rfl ?_
  · exact .staticCall _ (.function ⟨rfl, rfl⟩)
  · rintro q hq
    simp only [List.mem_cons, List.not_mem_nil, or_false] at hq
    rcases hq with rfl | rfl
    · exact .handed false (List.mem_singleton.2 rfl)
    · exact .param rfl

theorem history (r : Registry) :
    History (Freshly r.host vocabulary) (Uses r.host vocabulary) [dual, applied, successor]
      (store 3) := by
  have hsuccessor : ∀ {p}, successor.Takes p → p = x := fun h => by
    cases takes_lambda rfl h; rfl
  have happlied : ∀ {p}, applied.Takes p → p = y := fun h => by
    cases takes_lambda rfl h; rfl
  have hfirst : History (Freshly r.host vocabulary) (Uses r.host vocabulary) [successor] (store 1) :=
    .make (.start fresh_initial) (.ofLambda .projection x (by simp) (body_operation .add x rfl 1)) rfl
  have hsecond : Freshly r.host vocabulary [successor] (store 1)
      (Dual.ofLambda .projection ⟨[y], .staticCall apply [successor.functionRead, .param y]⟩) := by
    refine .ofLambda .projection y (fun d hd h => ?_) body_applied
    rw [List.mem_singleton.1 hd] at h
    cases hsuccessor h
  have hthird : Freshly r.host vocabulary [applied, successor] (store 2)
      (Dual.ofLambda .projection ⟨[z], applied.invoked tenfold⟩) := by
    refine .ofLambda .projection z (fun d hd h => ?_) ?_
    · simp only [List.mem_cons, List.not_mem_nil, or_false] at hd
      rcases hd with rfl | rfl
      · cases happlied h
      · cases hsuccessor h
    · exact .evaluation false (List.mem_cons_self ..) (body_operation .mul z rfl 10)
  exact .make (.make hfirst hsecond rfl) hthird rfl

/-- Evaluating the body of `applied`. -/
theorem evaluate_body (E : Engine) (v : Value) :
    evaluate E [(y, v)] (.staticCall apply [successor.functionRead, .param y]) = (do
      let f ← E.function successor
      E.call ⟨0, 2, .host "apply" []⟩ [.func f, v]) := by
  have hread : evaluate E [(y, v)] successor.functionRead = (do
      return .func (← E.function successor)) := evaluate_handed successor false
  show (do
    let args ← evaluateAll E [(y, v)] [successor.functionRead, .param y]
    apply.invoke E none args) = _
  simp only [evaluateAll, hread, evaluate_own, bind_assoc, pure_bind]
  rfl

theorem evaluate_three (r : Registry) :
    ∃ t, dual.evaluate (machine r.host 8) (.int 3) (store 3) = .ok (.int 31) t := by
  have hdual : (machine r.host 8).function dual (store 3) = .ok _ _ :=
    function_first rfl Std.HashMap.getElem?_empty 7
  generalize hs₁ : (Slot.function dual).write _ _ = s₁ at hdual
  have hnone₁ : ∀ id, dual.id ≠ id → s₁.functions[id]? = none := by
    intro id hid
    rw [← hs₁, functions_write, if_neg hid]
    exact Std.HashMap.getElem?_empty
  have happlied : (machine r.host 7).function applied s₁ = .ok _ _ :=
    function_first rfl (hnone₁ 1 (by decide)) 6
  generalize hs₂ : (Slot.function applied).write _ _ = s₂ at happlied
  have hnone₂ : s₂.functions[0]? = none := by
    rw [← hs₂, functions_write, if_neg (by decide)]
    exact hnone₁ 0 (by decide)
  have hsuccessor : (machine r.host 6).function successor s₂ = .ok _ _ := function_first rfl hnone₂ 5
  generalize (Slot.function successor).write _ _ = s₃ at hsuccessor
  refine ⟨s₃, (Act.bind_ok hdual).trans ?_⟩
  show evaluate (machine r.host 7) [(z, .int 3)] (applied.invoked tenfold) s₁ = _
  rw [evaluate_invoked]
  refine (Act.bind_ok happlied).trans ?_
  show evaluate (machine r.host 6) [(y, .int 30)] _ s₂ = _
  rw [evaluate_body]
  exact (Act.bind_ok hsuccessor).trans rfl

end Handing

/-- The tree form of the dual that hands on another one computes what the dual does. -/
theorem tree_refines_function_handing : ∃ t u,
    Handing.dual.evaluate (machine Registry.empty.host 8) (.int 3) (Handing.store 3) = .ok (.int 31) t ∧
      Reaches Registry.empty.host (fun E => Handing.dual.evaluateTree E (.int 3)) t (.int 31) u := by
  obtain ⟨t, ht⟩ := Handing.evaluate_three Registry.empty
  have hrespected := Handing.respected Registry.empty
  have hhistory := (history_fresh Handing.closed hrespected (Handing.history Registry.empty)).2
  obtain ⟨_, hrefines⟩ := tree_refines_function_hygienic Handing.closed hrespected hhistory
    (List.mem_cons_self ..)
  obtain ⟨u, hu⟩ := hrefines _ (.int 3) _ _ rfl ht
  exact ⟨t, u, ht, hu⟩

end DualForm
