import DualForm.Host.Registry
import DualForm.Proofs.Dual.History
import DualForm.Proofs.Rewriting.References

/-!
# No dual shows an unrewritten tree

* `Simple D ok origin` — a dual of this origin is made of duals with `D` and of lambdas that refer
  to duals only by evaluating duals with `D`; lambdas put before or after a dual have `ok`
  besides.
* `Sound D s₀ s` — the published tree forms of the duals with `D` hold no references, and nothing
  else has changed since `s₀`.
* `Constructs ok ds x` — `x` is one of the ways to make a dual of the duals `ds`.
* `Meanwhile host ds s t` — between two of them, tree forms are asked for, or something else
  happens.

Principal results: `machine_sound` — the tree forms of a family of simple duals hold no
references, if the lambdas put before or after duals hold none; `history_family` — every history makes
such families; `tree_references` — which duals show a tree with references.
-/

namespace DualForm

open Act (Ensures)

variable {D : Dual → Prop} {ok : Lam → Prop} {host : Host} {E : Engine}

/-- The lambda refers to no dual. -/
def Lambda.Free (l : Lam) : Prop := Calls (fun _ => False) l.tree

/-- Made of duals with `D` and of lambdas that only evaluate such duals. Lambdas put before or
after a dual have `ok`. -/
inductive Simple (D : Dual → Prop) (ok : Lam → Prop) : Origin → Prop
  | lambda {l : Lam} : Calls D l.tree → Simple D ok (.lambda l)
  | compiled {c : Compiled} {l : Lam} : c.expression = some l → Calls D l.tree →
      Simple D ok (.compiled c)
  | composed {outer inner : Dual} : D outer → D inner → Simple D ok (.composed outer inner)
  | precomposed {outer : Dual} {c : Compiled} {l : Lam} : D outer → c.expression = some l →
      Calls D l.tree → ok l → Simple D ok (.precomposed outer c)
  | postcomposed {inner : Dual} {c : Compiled} {l : Lam} : D inner → c.expression = some l →
      Calls D l.tree → ok l → Simple D ok (.postcomposed inner c)
  | conjunction {lhs rhs : Dual} : D lhs → D rhs → Simple D ok (.conjunction lhs rhs)
  | disjunction {lhs rhs : Dual} : D lhs → D rhs → Simple D ok (.disjunction lhs rhs)
  | negation {predicate : Dual} : D predicate → Simple D ok (.negation predicate)

theorem Simple.mono {D' : Dual → Prop} {o : Origin} (h : Simple D ok o) (hD : ∀ d, D d → D' d) :
    Simple D' ok o := by
  cases h with
  | lambda hl => exact .lambda (hl.mono hD)
  | compiled hc hl => exact .compiled hc (hl.mono hD)
  | composed ho hi => exact .composed (hD _ ho) (hD _ hi)
  | precomposed ho hc hl hok => exact .precomposed (hD _ ho) hc (hl.mono hD) hok
  | postcomposed hi hc hl hok => exact .postcomposed (hD _ hi) hc (hl.mono hD) hok
  | conjunction hl hr => exact .conjunction (hD _ hl) (hD _ hr)
  | disjunction hl hr => exact .disjunction (hD _ hl) (hD _ hr)
  | negation hp => exact .negation (hD _ hp)

/-- The published tree forms of the duals with `D` hold no references, and apart from those
nothing has changed since `s₀`. -/
structure Sound (D : Dual → Prop) (s₀ s : Store) : Prop where
  free : ∀ d l, D d → s.trees[d.id]? = some l → l.Free
  others : ∀ id, (∀ d, D d → d.id ≠ id) → s.trees[id]? = s₀.trees[id]?
  nextId : s.nextId = s₀.nextId
  functions : s.functions = s₀.functions

/-! ## Compositions of lambdas without references -/

theorem composed_free {f g l : Lam} (h : Lambda.composed f g = .ok l) (hf : f.Free) (hg : g.Free) :
    l.Free := by
  obtain ⟨x, _, p, hp, rfl⟩ := Lambda.composed_ok.1 h
  obtain ⟨_, hfbody⟩ := Calls.lambda_iff.1 hf
  obtain ⟨hgparams, hgbody⟩ := Calls.lambda_iff.1 hg
  rw [hp] at hgparams
  exact Calls.lambda_iff.2 ⟨hgparams, hfbody.substitute hgbody⟩

theorem combined_free {op : BinaryOp} {lhs rhs l : Lam} (h : Lambda.combined op lhs rhs = .ok l)
    (hl : lhs.Free) (hr : rhs.Free) : l.Free := by
  obtain ⟨p, hp, q, _, rfl⟩ := Lambda.combined_ok.1 h
  obtain ⟨hlparams, hlbody⟩ := Calls.lambda_iff.1 hl
  obtain ⟨_, hrbody⟩ := Calls.lambda_iff.1 hr
  rw [hp] at hlparams
  refine Calls.lambda_iff.2 ⟨hlparams, hlbody.operation (hrbody.substitute ?_)⟩
  exact Calls.param_iff.2 (hlparams p (List.mem_singleton.2 rfl))

theorem negation_free {predicate l : Lam} (h : Lambda.negation predicate = .ok l)
    (hpredicate : predicate.Free) : l.Free := by
  obtain ⟨p, hp, rfl⟩ := Lambda.negation_ok.1 h
  obtain ⟨hparams, hbody⟩ := Calls.lambda_iff.1 hpredicate
  rw [hp] at hparams
  exact Calls.lambda_iff.2 ⟨hparams, hbody.complement⟩

/-! ## The tree forms of a family -/

theorem compiled_tree_supplied {c : Compiled} {l : Lam} (h : c.expression = some l) :
    c.tree host E = pure l := by
  unfold Compiled.tree
  rw [h]

/-- What is published of a dual was computed from a simple origin. -/
theorem initialTree_free {d : Dual} {I : Store → Prop}
    (hd : Simple D (fun l => l.tree.referencesDuals = false) d.origin)
    (htree : ∀ e, D e → Ensures I Lambda.Free (E.tree e))
    (hrewrite : ∀ pass D' u, (∀ e, D' e → D e) → Calls D' u →
      Ensures I (Calls (pass.leaves D')) (E.rewrite pass u)) :
    Ensures I Lambda.Free (d.initialTree host E) := by
  have hboth : ∀ a b : Dual, D a → D b → ∀ combine : Lam → Lam → Except Error Lam,
      (∀ f g l, combine f g = .ok l → f.Free → g.Free → l.Free) →
      Ensures I Lambda.Free (do
        let f ← E.tree a
        Act.lift (combine f (← E.tree b))) := fun a b ha hb combine hc =>
    (htree a ha).bind fun f hf => (htree b hb).bind fun g hg =>
      Ensures.lift fun l hl => hc f g l hl hf hg
  have hsupplied : ∀ (a : Dual) (c : Compiled) (k : Lam), D a → c.expression = some k →
      Calls D k.tree → k.tree.referencesDuals = false → ∀ combine : Lam → Lam → Except Error Lam,
      (∀ f g l, combine f g = .ok l → f.Free → g.Free → l.Free) →
      Ensures I Lambda.Free (do
        let f ← E.tree a
        Act.lift (combine f (← c.tree host E))) := by
    intro a c k ha hc hk hok combine hcombine
    rw [compiled_tree_supplied hc]
    exact (htree a ha).bind fun f hf => Ensures.lift fun l hl =>
      hcombine f k l hl hf (hk.none_of_unreferenced hok)
  unfold Dual.initialTree
  generalize d.origin = o at hd ⊢
  cases hd with
  | lambda hl => exact rewriteLambda_calls hl hrewrite
  | compiled hc hl =>
      dsimp only
      rw [compiled_tree_supplied hc]
      exact rewriteLambda_calls hl hrewrite
  | composed ho hi => exact hboth _ _ ho hi _ fun f g l h hf hg => composed_free h hf hg
  | precomposed ho hc hl hok =>
      exact hsupplied _ _ _ ho hc hl hok _ fun f g l h hf hg => composed_free h hf hg
  | postcomposed hi hc hl hok =>
      exact hsupplied _ _ _ hi hc hl hok _ fun f g l h hf hg =>
        composed_free (Lambda.continued_ok.1 h) hg hf
  | conjunction hl hr => exact hboth _ _ hl hr _ fun f g l h hf hg => combined_free h hf hg
  | disjunction hl hr => exact hboth _ _ hl hr _ fun f g l h hf hg => combined_free h hf hg
  | negation hp => exact (htree _ hp).bind fun f hf => Ensures.lift fun l hl => negation_free hl hf

/-- **The tree forms of a family of simple duals hold no references,** if the lambdas put before or
after duals hold none. The induction is on the nested steps allowed. -/
theorem machine_sound (hD : ∀ d, D d → Simple D (fun l => l.tree.referencesDuals = false) d.origin)
    (s₀ : Store) : ∀ n, (∀ d, D d → Ensures (Sound D s₀) Lambda.Free ((machine host n).tree d)) ∧
      ∀ pass D' t, (∀ d, D' d → D d) → Calls D' t →
        Ensures (Sound D s₀) (Calls (pass.leaves D')) ((machine host n).rewrite pass t)
  | 0 => ⟨fun _ _ => Ensures.exhausted, fun _ _ _ _ _ => Ensures.exhausted⟩
  | n + 1 => by
      obtain ⟨htree, hrewrite⟩ := machine_sound hD s₀ n
      constructor
      · intro d hd
        refine publishOnce_ensures (initialTree_free (hD d hd) htree hrewrite) ?_ ?_
        · intro s l hs hl
          exact hs.free d l hd hl
        · intro s l _ hs hl
          refine ⟨fun e k he hk => ?_, fun id hid => ?_, hs.nextId, hs.functions⟩
          · rw [trees_write] at hk
            split at hk
            · cases hk; exact hl
            · exact hs.free e k he hk
          · rw [trees_write, if_neg (hid d hd)]
            exact hs.others id hid
      · intro pass D' t hD' ht
        exact run_calls ht (fun d hd => htree d (hD' d hd)) fun u hu => hrewrite pass D' u hD' hu

/-! ## Histories -/

/-- The ways to make a dual of earlier ones and of lambdas that only evaluate earlier ones.
Lambdas put before or after a dual have `ok`. -/
inductive Constructs (ok : Lam → Prop) (ds : List Dual) : Act Dual → Prop
  | ofLambda (kind : DualKind) {l : Lam} : Calls (· ∈ ds) l.tree →
      Constructs ok ds (Dual.ofLambda kind l)
  | ofCompiled (kind : DualKind) (source result : Ty) {c : Compiled} {l : Lam} :
      c.expression = some l → Calls (· ∈ ds) l.tree →
      Constructs ok ds (Dual.ofCompiled kind source result c)
  | applyTo {outer : Dual} {l : Lam} : outer ∈ ds → Calls (· ∈ ds) l.tree → ok l →
      Constructs ok ds (outer.applyTo l)
  | applyToFunc {outer : Dual} (source : Ty) {c : Compiled} {l : Lam} : outer ∈ ds →
      c.expression = some l → Calls (· ∈ ds) l.tree → ok l →
      Constructs ok ds (outer.applyToFunc source c)
  | continueWith {inner : Dual} {l : Lam} : inner ∈ ds → Calls (· ∈ ds) l.tree → ok l →
      Constructs ok ds (inner.continueWith l)
  | continueWithFunc {inner : Dual} (result : Ty) {c : Compiled} {l : Lam} : inner ∈ ds →
      c.expression = some l → Calls (· ∈ ds) l.tree → ok l →
      Constructs ok ds (inner.continueWithFunc result c)
  | compose {outer inner : Dual} : outer ∈ ds → inner ∈ ds → Constructs ok ds (outer.compose inner)
  | conjunction {lhs rhs : Dual} : lhs ∈ ds → rhs ∈ ds →
      Constructs ok ds (Dual.conjunction lhs rhs)
  | disjunction {lhs rhs : Dual} : lhs ∈ ds → rhs ∈ ds →
      Constructs ok ds (Dual.disjunction lhs rhs)
  | negation {predicate : Dual} : predicate ∈ ds → Constructs ok ds (Dual.negation predicate)

/-- Between two of them the tree form of a dual is asked for, with any bound on nested steps, or
something happens that leaves the tree forms of the duals alone. -/
inductive Meanwhile (host : Host) (ds : List Dual) : Store → Store → Prop
  | tree {d : Dual} (n : Nat) (s : Store) : d ∈ ds →
      Meanwhile host ds s (((machine host n).tree d).final s)
  | elsewhere {s t : Store} : (∀ d ∈ ds, t.trees[d.id]? = s.trees[d.id]?) → s.nextId ≤ t.nextId →
      Fresh t → Meanwhile host ds s t

theorem constructs_makes {ds : List Dual} {x : Act Dual} (h : Constructs ok ds x) :
    Makes (Simple (· ∈ ds) ok) x := by
  cases h with
  | ofLambda kind hl => exact ofLambda_makes (.lambda hl) kind
  | ofCompiled kind source result hc hl => exact ofCompiled_makes (.compiled hc hl) ..
  | applyTo ho hl hok => exact applyTo_makes fun _ => .precomposed ho rfl hl hok
  | applyToFunc source ho hc hl hok => exact applyToFunc_makes (.precomposed ho hc hl hok) _
  | continueWith hi hl hok => exact continueWith_makes fun _ => .postcomposed hi rfl hl hok
  | continueWithFunc result hi hc hl hok =>
      exact continueWithFunc_makes (.postcomposed hi hc hl hok) _
  | compose ho hi => exact compose_makes (.composed ho hi)
  | conjunction hl hr => exact conjunction_makes (.conjunction hl hr)
  | disjunction hl hr => exact disjunction_makes (.disjunction hl hr)
  | negation hp => exact negation_makes (.negation hp)

/-- What holds of the duals made so far. -/
structure Family (ds : List Dual) (s : Store) : Prop where
  simple : ∀ d ∈ ds, Simple (· ∈ ds) (fun l => l.tree.referencesDuals = false) d.origin
  known : ∀ d ∈ ds, d.id < s.nextId
  free : ∀ d ∈ ds, ∀ l, s.trees[d.id]? = some l → l.Free
  fresh : Fresh s

theorem Family.sound {ds : List Dual} {s : Store} (h : Family ds s) : Sound (· ∈ ds) s s :=
  ⟨fun d l hd => h.free d hd l, fun _ _ => rfl, rfl, rfl⟩

theorem Family.tree {ds : List Dual} {s : Store} (h : Family ds s) {d : Dual} (hd : d ∈ ds) (n : Nat) :
    Ensures (Sound (· ∈ ds) s) Lambda.Free ((machine host n).tree d) :=
  (machine_sound h.simple s n).1 d hd

theorem history_family {ds : List Dual} {s : Store}
    (h : History (fun ds _ => Constructs (fun l => l.tree.referencesDuals = false) ds)
      (Meanwhile host) ds s) :
    Family ds s := by
  induction h with
  | start hs => exact ⟨by simp, by simp, by simp, hs⟩
  | @make ds s t x d _ hx hd ih =>
      have hmakes := constructs_makes hx
      obtain ⟨hsimple, hid, rfl⟩ := hmakes.made s d t hd
      obtain ⟨hfresh, hnone, _⟩ := hmakes.fresh hd ih.fresh
      refine ⟨fun e he => ?_, fun e he => ?_, fun e he l hl => ?_, hfresh⟩
      · rcases List.mem_cons.1 he with rfl | he
        · exact hsimple.mono fun _ h => List.mem_cons_of_mem _ h
        · exact (ih.simple e he).mono fun _ h => List.mem_cons_of_mem _ h
      · rcases List.mem_cons.1 he with rfl | he
        · exact Nat.lt_succ_self _
        · exact Nat.lt_succ_of_lt (Nat.lt_of_lt_of_le (ih.known e he) hid)
      · rcases List.mem_cons.1 he with rfl | he
        · rw [hnone] at hl; cases hl
        · exact ih.free e he l hl
  | @between ds s t _ hst ih =>
      cases hst with
      | tree n _ hd =>
          have hkeeps : Act.Keeps (Sound (· ∈ ds) s) ((machine host n).tree _) := (ih.tree hd n).keeps
          have hsound := hkeeps.after s ih.sound
          refine ⟨ih.simple, fun e he => ?_, fun e he l hl => hsound.free e l he hl, ?_⟩
          · rw [hsound.nextId]; exact ih.known e he
          · refine ⟨fun id hid => ?_, fun id hid => ?_⟩
            · rw [hsound.nextId] at hid
              rw [hsound.others id fun e he => Nat.ne_of_lt (Nat.lt_of_lt_of_le (ih.known e he) hid)]
              exact ih.fresh.trees id hid
            · rw [hsound.nextId] at hid
              rw [hsound.functions]; exact ih.fresh.functions id hid
      | elsewhere hsame hnext hfresh =>
          refine ⟨ih.simple, fun e he => Nat.lt_of_lt_of_le (ih.known e he) hnext,
            fun e he l hl => ih.free e he l ?_, hfresh⟩
          rw [← hsame e he]; exact hl

/-! ## Which tree forms hold references -/

/-- A lambda with references is put after a dual, or before one whose tree form reads its
parameter. -/
def Origin.exposes (s : Store) : Origin → Prop
  | .postcomposed _ c => ∃ k, c.expression = some k ∧ k.tree.referencesDuals = true
  | .precomposed outer c => ∃ k f x, c.expression = some k ∧ k.tree.referencesDuals = true ∧
      s.trees[outer.id]? = some f ∧ f.params = [x] ∧ f.body.anyNode (·.reads x) = true
  | _ => False

theorem exposes_congr {o : Origin} (h : Simple D ok o) {s t : Store}
    (hst : ∀ d, D d → t.trees[d.id]? = s.trees[d.id]?) : o.exposes t ↔ o.exposes s := by
  cases h with
  | precomposed ho _ _ _ =>
      unfold Origin.exposes
      dsimp only
      rw [hst _ ho]
  | _ => exact Iff.rfl

/-- Composing brings in the references of the outer lambda, and those of the inner one if the
parameter is read. -/
theorem composed_unreferenced {f g l : Lam} (h : Lambda.composed f g = .ok l) (hf : Calls D f.tree) :
    ∃ x, f.params = [x] ∧ (l.tree.referencesDuals = false ↔ f.tree.referencesDuals = false ∧
      (g.tree.referencesDuals = false ∨ f.body.anyNode (·.reads x) = false)) := by
  have hlambda : ∀ k : Lam, k.tree.referencesDuals = false ↔ k.body.referencesDuals = false := by
    intro k
    unfold Tree.referencesDuals
    rw [Tree.anyNode_eq_false, Tree.anyNode_eq_false, Tree.everywhere_iff]
    constructor
    · intro h; exact h.2 k.body (List.mem_singleton.2 rfl)
    · intro h; exact ⟨rfl, fun c hc => by rw [List.mem_singleton.1 hc]; exact h⟩
  obtain ⟨x, hx, p, _, rfl⟩ := Lambda.composed_ok.1 h
  refine ⟨x, hx, ?_⟩
  rw [hlambda, hlambda f, hlambda g]
  exact substitute_unreferenced (Calls.lambda_iff.1 hf).2

/-- An origin without a lambda put before or after a dual makes no difference to what such lambdas
have. -/
theorem Simple.cases_composed {o : Origin} (h : Simple D ok o) :
    (∃ outer c l, o = .precomposed outer c ∧ D outer ∧ c.expression = some l ∧ Calls D l.tree) ∨
      (∃ inner c l, o = .postcomposed inner c ∧ D inner ∧ c.expression = some l ∧ Calls D l.tree) ∨
      (∀ ok', Simple D ok' o) ∧ ∀ s, ¬ o.exposes s := by
  cases h with
  | precomposed ho hc hl _ => exact .inl ⟨_, _, _, rfl, ho, hc, hl⟩
  | postcomposed hi hc hl _ => exact .inr (.inl ⟨_, _, _, rfl, hi, hc, hl⟩)
  | lambda hl => exact .inr (.inr ⟨fun _ => .lambda hl, fun _ h => h⟩)
  | compiled hc hl => exact .inr (.inr ⟨fun _ => .compiled hc hl, fun _ h => h⟩)
  | composed ho hi => exact .inr (.inr ⟨fun _ => .composed ho hi, fun _ h => h⟩)
  | conjunction hl hr => exact .inr (.inr ⟨fun _ => .conjunction hl hr, fun _ h => h⟩)
  | disjunction hl hr => exact .inr (.inr ⟨fun _ => .disjunction hl hr, fun _ h => h⟩)
  | negation hp => exact .inr (.inr ⟨fun _ => .negation hp, fun _ h => h⟩)

/-- A dual combined with a supplied lambda: its tree form is published by then. -/
theorem supplied_published {ds : List Dual} {s v : Store} {a : Dual} {c : Compiled} {k l : Lam} {n : Nat}
    {combine : Lam → Lam → Except Error Lam}
    (htree : Ensures (Sound (· ∈ ds) s) Lambda.Free ((machine host n).tree a))
    (hs : Sound (· ∈ ds) s s) (hc : c.expression = some k)
    (h : (do
      let f ← (machine host n).tree a
      Act.lift (combine f (← c.tree host (machine host n))) : Act Lam) s = .ok l v) :
    ∃ f : Lam, f.Free ∧ v.trees[a.id]? = some f ∧ Sound (· ∈ ds) s v ∧ combine f k = .ok l := by
  obtain ⟨f, w, hf, h⟩ := Act.bind_eq_ok.1 h
  rw [compiled_tree_supplied hc, pure_bind] at h
  obtain ⟨hl, rfl⟩ := Act.lift_eq_ok.1 h
  refine ⟨f, htree.result s f w hs hf, ?_, htree.keeps.ok hf hs, hl⟩
  cases n with
  | zero => cases hf
  | succ n => exact forceTree_published hf

/-- The tree form of a dual made of a family without references. -/
theorem initialTree_references {ds : List Dual} {s v : Store} {u : Dual} {n : Nat} {l : Lam}
    (hsimple : ∀ d ∈ ds, Simple (· ∈ ds) (fun l => l.tree.referencesDuals = false) d.origin)
    (hs : Sound (· ∈ ds) s s) (hu : Simple (· ∈ ds) ok u.origin)
    (h : u.initialTree host (machine host n) s = .ok l v) :
    Sound (· ∈ ds) s v ∧ (l.tree.referencesDuals = true ↔ u.origin.exposes v) := by
  obtain ⟨htree, hrewrite⟩ := @machine_sound (· ∈ ds) host hsimple s n
  unfold Dual.initialTree at h
  -- Only a lambda composed with a dual gets into the tree form without a pass over it.
  rcases hu.cases_composed with ⟨outer, c, k, ho, houter, hc, hk⟩ | ⟨inner, c, k, ho, hinner, hc, hk⟩ |
    ⟨hok, hexposes⟩
  · rw [ho] at h
    obtain ⟨f, hf, hpublished, hsound, hl⟩ := supplied_published (htree outer houter) hs hc h
    obtain ⟨x, hx, hl⟩ := composed_unreferenced hl hf
    simp only [hf.unreferenced, true_and] at hl
    rw [ho, ← Bool.not_eq_false, hl, not_or, Bool.not_eq_false, Bool.not_eq_false]
    refine ⟨hsound, ?_⟩
    constructor
    · rintro ⟨href, hreads⟩
      exact ⟨k, f, x, hc, href, hpublished, hx, hreads⟩
    · rintro ⟨k', f', x', hc', hk', hf', hx', hreads⟩
      rw [hc] at hc'
      rw [hpublished] at hf'
      cases hc'; cases hf'
      rw [hx] at hx'
      cases hx'
      exact ⟨hk', hreads⟩
  · rw [ho] at h
    obtain ⟨f, hf, _, hsound, hl⟩ := supplied_published (htree inner hinner) hs hc h
    obtain ⟨x, _, hl⟩ := composed_unreferenced (Lambda.continued_ok.1 hl) hk
    simp only [hf.unreferenced, true_or, and_true] at hl
    rw [ho, ← Bool.not_eq_false, hl, Bool.not_eq_false]
    refine ⟨hsound, ?_⟩
    constructor
    · intro href
      exact ⟨k, hc, href⟩
    · rintro ⟨k', hc', hk'⟩
      rw [hc] at hc'
      cases hc'
      exact hk'
  · have hfree : Ensures (Sound (· ∈ ds) s) Lambda.Free (u.initialTree host (machine host n)) :=
      initialTree_free (hok _) htree hrewrite
    have hl := (hfree.result s l v hs h).unreferenced
    refine ⟨hfree.keeps.ok h hs, ?_⟩
    rw [hl]
    exact ⟨fun h => (nomatch h), fun h => (hexposes v h).elim⟩

/-- **Which duals show an unrewritten tree.** After every history of duals in which the lambdas
put before or after duals hold no references, no tree form holds any; and whatever dual is made
next, its tree form holds references exactly if it puts a lambda with references after a dual, or
before one whose tree form reads its parameter. -/
theorem tree_references {ds : List Dual} {s : Store}
    (h : History (fun ds _ => Constructs (fun l => l.tree.referencesDuals = false) ds)
      (Meanwhile host) ds s) :
    (∀ d ∈ ds, ∀ n l t, (machine host n).tree d s = .ok l t → l.tree.referencesDuals = false) ∧
      ∀ x u s', Constructs (fun _ => True) ds x → x s = .ok u s' →
        ∀ n l t, (machine host n).tree u s' = .ok l t →
          (l.tree.referencesDuals = true ↔ u.origin.exposes t) := by
  have hfamily := history_family h
  constructor
  · intro d hd n l t hl
    exact ((hfamily.tree hd n).result s l t hfamily.sound hl).unreferenced
  · intro x u s' hx hu n l t hl
    have hmakes := constructs_makes hx
    obtain ⟨_, hnone, _⟩ := hmakes.fresh hu hfamily.fresh
    obtain ⟨hsimple, hid, rfl⟩ := hmakes.made s u s' hu
    have hother : ∀ d ∈ ds, d.id ≠ u.id := fun d hd =>
      Nat.ne_of_lt (Nat.lt_of_lt_of_le (hfamily.known d hd) hid)
    have hsound : Sound (· ∈ ds) { s with nextId := u.id + 1 } { s with nextId := u.id + 1 } :=
      ⟨fun d l hd => hfamily.free d hd l, fun _ _ => rfl, rfl, rfl⟩
    cases n with
    | zero => cases hl
    | succ n =>
        rcases publishOnce_ok hl with ⟨hread, _⟩ | ⟨_, b, v, hb, hrest⟩
        · change s.trees[u.id]? = some l at hread
          change s.trees[u.id]? = none at hnone
          rw [hnone] at hread; cases hread
        · obtain ⟨hv, href⟩ := initialTree_references hfamily.simple hsound hsimple hb
          have hempty : v.trees[u.id]? = none := (hv.others u.id hother).trans hnone
          rcases hrest with ⟨hread, _⟩ | ⟨_, rfl, rfl⟩
          · change v.trees[u.id]? = some l at hread
            rw [hempty] at hread; cases hread
          · rw [href]
            refine exposes_congr hsimple fun d hd => ?_
            rw [trees_write, if_neg (hother d hd).symm]

/-! ## A lambda with references before a dual -/

namespace Preceded

/-- `x => x * 2`. -/
def twice : Lam :=
  ⟨[⟨0, "x", .int⟩], .operation .mul (.param ⟨0, "x", .int⟩) (Tree.constant (.int 2))⟩

/-- The dual of `x => x * 2`. -/
def outer : Dual := ⟨0, .projection, .int, .int, .lambda twice⟩

/-- `y => outer(y)`. -/
def inner : Lam := ⟨[⟨1, "y", .int⟩], outer.invoked (.param ⟨1, "y", .int⟩)⟩

/-- The dual that applies `outer` to its own result. -/
def dual : Dual :=
  ⟨2, .projection, .int, .int, .precomposed outer ⟨⟨1, 1, .closure inner []⟩, some inner, none⟩⟩

/-- The store after `outer` has been made, and after `dual` has. -/
def store (n : Nat) : Store := { Store.initial with nextId := n }

theorem history (host : Host) : History
    (fun ds _ => Constructs (fun l => l.tree.referencesDuals = false) ds) (Meanwhile host)
    [outer] (store 1) := by
  have hcalls : Calls (· ∈ ([] : List Dual)) twice.tree := by
    refine Calls.lambda_iff.2 ⟨?_, Calls.operation (Calls.param_iff.2 rfl) ?_⟩
    · intro p hp
      rw [List.mem_singleton.1 hp]
      rfl
    · exact .plain rfl fun c hc => by cases hc
  exact .make (.start fresh_initial) (.ofLambda .projection hcalls) rfl

theorem constructs : Constructs (fun _ => True) [outer] (outer.applyTo inner) := by
  refine .applyTo (List.mem_singleton.2 rfl) (Calls.lambda_iff.2 ⟨?_, ?_⟩) trivial
  · intro p hp
    rw [List.mem_singleton.1 hp]
    rfl
  · exact .invoked (List.mem_singleton.2 rfl) (Calls.param_iff.2 rfl)

theorem made : outer.applyTo inner (store 1) = .ok dual (store 3) := rfl

/-- The tree form of `dual`, `y => outer(y) * 2`. -/
def tree : Lam := ⟨[⟨1, "y", .int⟩], .operation .mul inner.body (Tree.constant (.int 2))⟩

theorem tree_run (host : Host) : (machine host 3).tree dual (store 3) =
    .ok tree ((Slot.tree dual).write tree ((Slot.tree outer).write twice (store 3))) := by
  have hempty : ∀ d, (Slot.tree d).read (store 3) = none := fun d =>
    Std.HashMap.getElem?_empty
  have houter : (machine host 2).tree outer (store 3) =
      .ok twice ((Slot.tree outer).write twice (store 3)) :=
    publishOnce_first (hempty outer) rfl (hempty outer)
  have hinitial : dual.initialTree host (machine host 2) (store 3) =
      .ok tree ((Slot.tree outer).write twice (store 3)) := by
    unfold Dual.initialTree
    exact (Act.bind_ok houter).trans rfl
  refine publishOnce_first (hempty dual) hinitial ?_
  exact (trees_write ..).trans ((if_neg (by decide)).trans Std.HashMap.getElem?_empty)

end Preceded

/-- The condition is needed: a lambda with a reference, put before a dual, stays in the tree
form. -/
theorem tree_references_preceded : ∃ (ds : List Dual) (s s' t : Store) (x : Act Dual) (u : Dual)
    (l : Lam), History (fun ds _ => Constructs (fun l => l.tree.referencesDuals = false) ds)
        (Meanwhile Registry.empty.host) ds s ∧
      Constructs (fun _ => True) ds x ∧ x s = .ok u s' ∧
      (machine Registry.empty.host 3).tree u s' = .ok l t ∧ l.tree.referencesDuals = true := by
  have hrun := Preceded.tree_run Registry.empty.host
  refine ⟨[Preceded.outer], Preceded.store 1, Preceded.store 3, _, _, Preceded.dual, Preceded.tree,
    Preceded.history _, Preceded.constructs, Preceded.made, hrun, ?_⟩
  refine ((tree_references (Preceded.history Registry.empty.host)).2 _ _ _ Preceded.constructs
    Preceded.made 3 _ _ hrun).2 ?_
  refine ⟨Preceded.inner, Preceded.twice, ⟨0, "x", .int⟩, rfl, ?_, ?_, rfl, ?_⟩
  · refine Bool.of_not_eq_false fun h => ?_
    have hbody := (Tree.anyNode_eq_false.1 h).child (c := Preceded.inner.body)
      (List.mem_singleton.2 rfl)
    exact invoked_referenced _ _ hbody
  · rw [trees_write, if_neg (by decide), trees_write]
    rfl
  · refine Bool.of_not_eq_false fun h => ?_
    have hread := (Tree.anyNode_eq_false.1 h).child (c := .param ⟨0, "x", .int⟩)
      (List.mem_cons_self ..)
    cases hread.here

end DualForm
