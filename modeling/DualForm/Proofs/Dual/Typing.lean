import Mathlib.Data.List.Nodup
import DualForm.Proofs.Dual.References
import DualForm.Proofs.Rewriting.Typing

/-!
# Tree forms have the types that the duals declare

* `Dual.Yields D d result` — `d` is made of duals with `D` and of lambdas that evaluate such duals on arguments of
  their source types; the body of its tree form has the type `result`.
* `Grounded ds` — each of the duals, latest first, is made of earlier ones, and its tree form has the type it
  declares.
* `Displays ds s₀ s` — the published tree forms of the duals have the types these declare, and nothing else has
  changed since `s₀`.
* `ConstructsTyped exact ds x` — `x` is one of the ways to make a dual of the duals `ds` where types meet. If
  `exact`, a specification that is put after a projection declares that it returns a boolean.

Principal results: `initialTree_yields` — the tree forms that are computed have those types;
`Grounded.declaring` — so have all that are handed out; `tree_declares` — after every history;
`tree_declares_not` — but not where a specification that may return anything is put after a projection.
-/

namespace DualForm

variable {host : Host} {D : Dual → Prop} {P : Store → Prop} {d : Dual} {ds : List Dual} {s s₀ : Store}

/-! ## Lambdas made of lambdas -/

section Lambdas

variable {f g : Lam} {source middle result result' : Ty}

/-- Composing lambdas whose types meet. -/
theorem composed_declares (hf : f.Declares middle result) (hg : g.Declares source middle)
    (hfree : f.tree.referencesDuals = false) (hgfree : g.tree.referencesDuals = false) :
    ∃ l, Lambda.composed f g = .ok l ∧ l.Declares source result ∧ l.tree.referencesDuals = false := by
  obtain ⟨⟨x, hx, hxty⟩, hfty⟩ := Lambda.declares_iff.1 hf
  obtain ⟨⟨p, hp, hpty⟩, hgty⟩ := Lambda.declares_iff.1 hg
  have hty : g.body.ty = x.ty := hgty.trans hxty.symm
  have hbody : Typed (fun _ => False) f.body := Typed.lambda_iff.1 (Typed.of_unreferenced hfree)
  have harg : Typed (fun _ => False) g.body := Typed.lambda_iff.1 (Typed.of_unreferenced hgfree)
  refine ⟨_, Lambda.composed_ok.2 ⟨x, hx, p, hp, rfl⟩, ?_, ?_⟩
  · exact Lambda.declares_iff.2 ⟨⟨p, rfl, hpty⟩, (Tree.ty_substitute hty _).trans hfty⟩
  · exact (Typed.lambda_iff.2 (hbody.substitute hty fun _ => harg)).unreferenced

/-- Combining predicates over one source. -/
theorem combined_declares {op : BinaryOp} (hop : op.isPredicate = true) (hf : f.Declares source result)
    (hg : g.Declares source result') (hfree : f.tree.referencesDuals = false)
    (hgfree : g.tree.referencesDuals = false) :
    ∃ l, Lambda.combined op f g = .ok l ∧ l.Declares source .bool ∧ l.tree.referencesDuals = false := by
  obtain ⟨⟨p, hp, hpty⟩, _⟩ := Lambda.declares_iff.1 hf
  obtain ⟨⟨q, hq, hqty⟩, _⟩ := Lambda.declares_iff.1 hg
  have hty : (Tree.param p : Expr).ty = q.ty := hpty.trans hqty.symm
  have hleft : Typed (fun _ => False) f.body := Typed.lambda_iff.1 (Typed.of_unreferenced hfree)
  have hright : Typed (fun _ => False) g.body := Typed.lambda_iff.1 (Typed.of_unreferenced hgfree)
  refine ⟨_, Lambda.combined_ok.2 ⟨p, hp, q, hq, rfl⟩, ?_, ?_⟩
  · refine Lambda.declares_iff.2 ⟨⟨p, rfl, hpty⟩, ?_⟩
    simp [Tree.operation, Tree.ty, hop]
  · have hshared : Typed (fun _ => False) (Tree.substitute q (.param p) g.body) :=
      hright.substitute hty fun hplain => Typed.param (by rw [show p.ty = q.ty from hty]; exact hplain)
    exact (Typed.lambda_iff.2 (hleft.operation hshared)).unreferenced

/-- Negating a predicate. -/
theorem negation_declares (hf : f.Declares source result) (hfree : f.tree.referencesDuals = false) :
    ∃ l, Lambda.negation f = .ok l ∧ l.Declares source .bool ∧ l.tree.referencesDuals = false := by
  obtain ⟨⟨p, hp, hpty⟩, _⟩ := Lambda.declares_iff.1 hf
  have hbody : Typed (fun _ => False) f.body := Typed.lambda_iff.1 (Typed.of_unreferenced hfree)
  refine ⟨_, Lambda.negation_ok.2 ⟨p, hp, rfl⟩, ?_, ?_⟩
  · exact Lambda.declares_iff.2 ⟨⟨p, rfl, hpty⟩, rfl⟩
  · exact (Typed.lambda_iff.2 hbody.complement).unreferenced

end Lambdas

/-! ## Tree forms that are computed -/

/-- How a dual is made of duals with `D`, and the type that the body of its tree form has. -/
inductive Dual.Yields (D : Dual → Prop) : Dual → Ty → Prop
  | lambda {id : Nat} {kind : DualKind} {p : Param} {b : Expr} : Typed D b →
      Yields D ⟨id, kind, p.ty, b.ty, .lambda ⟨[p], b⟩⟩ b.ty
  | composed {id : Nat} {outer inner : Dual} : D outer → D inner → inner.result = outer.source →
      Yields D ⟨id, outer.kind, inner.source, Dual.derivedResult outer.kind outer.result,
        .composed outer inner⟩ outer.result
  | conjunction {id : Nat} {lhs rhs : Dual} : D lhs → D rhs → lhs.source = rhs.source →
      Yields D ⟨id, .specification, lhs.source, .bool, .conjunction lhs rhs⟩ .bool
  | disjunction {id : Nat} {lhs rhs : Dual} : D lhs → D rhs → lhs.source = rhs.source →
      Yields D ⟨id, .specification, lhs.source, .bool, .disjunction lhs rhs⟩ .bool
  | negation {id : Nat} {predicate : Dual} : D predicate →
      Yields D ⟨id, .specification, predicate.source, .bool, .negation predicate⟩ .bool

/-- Two tree forms, asked for one after the other and put together. -/
theorem both_declare {a b : Dual} {combine : Lam → Lam → Except Error Lam} {source result : Ty}
    (hD : Declaring host P D) (ha : D a) (hb : D b)
    (hcombine : ∀ f g : Lam, f.Declares a.source a.result → g.Declares b.source b.result →
      f.tree.referencesDuals = false → g.tree.referencesDuals = false →
      ∃ l, combine f g = .ok l ∧ l.Declares source result ∧ l.tree.referencesDuals = false) :
    Triple host True P P
      (fun (l : Lam) s => (l.Declares source result ∧ l.tree.referencesDuals = false) ∧ P s)
      (fun E => do
        let f ← E.tree a
        Act.lift (combine f (← E.tree b))) := by
  refine (hD a ha).bind fun f => Triple.assuming (fun s hs => hs.1) ?_
  rintro ⟨hf, hfree⟩
  refine ((hD b hb).imp (fun s hs => hs.2) fun _ _ h => h).bind fun g => Triple.assuming (fun s hs => hs.1) ?_
  rintro ⟨hg, hgfree⟩
  obtain ⟨l, hl, hdeclares⟩ := hcombine f g hf hg hfree hgfree
  exact Triple.lift hl fun s hs => ⟨hdeclares, hs.2⟩

/-- **The tree form that is computed has the type it yields,** and computing it ends. -/
theorem initialTree_yields {result : Ty} (hD : Declaring host P D) (hd : d.Yields D result) :
    Triple host True P P (fun l s => (l.Declares d.source result ∧ l.tree.referencesDuals = false) ∧ P s)
      fun E => d.initialTree host E := by
  cases hd with
  | lambda hb => exact rewriteLambda_typed hD hb
  | composed ho hi hmeet =>
      refine both_declare hD ho hi fun f g hf hg hfree hgfree => ?_
      rw [hmeet] at hg
      exact composed_declares hf hg hfree hgfree
  | conjunction hl hr hsame | disjunction hl hr hsame =>
      refine both_declare hD hl hr fun f g hf hg hfree hgfree => ?_
      rw [← hsame] at hg
      exact combined_declares rfl hf hg hfree hgfree
  | negation hp =>
      refine (hD _ hp).bind fun f => Triple.assuming (fun s hs => hs.1) ?_
      rintro ⟨hf, hfree⟩
      obtain ⟨l, hl, hdeclares⟩ := negation_declares hf hfree
      exact Triple.lift hl fun s hs => ⟨hdeclares, hs.2⟩

/-! ## Tree forms that are handed out -/

/-- Latest first, each of the duals is made of earlier ones, and its tree form has the type it declares. -/
inductive Grounded : List Dual → Prop
  | nil : Grounded []
  | cons {d : Dual} {ds : List Dual} : d.Yields (· ∈ ds) d.result → Grounded ds → Grounded (d :: ds)

/-- The published tree forms of the duals have the types these declare, and no references. Apart from those
nothing has changed since `s₀`. -/
structure Displays (ds : List Dual) (s₀ s : Store) : Prop where
  shown : ∀ d ∈ ds, ∀ l, s.trees[d.id]? = some l →
    l.Declares d.source d.result ∧ l.tree.referencesDuals = false
  others : ∀ id, (∀ d ∈ ds, d.id ≠ id) → s.trees[id]? = s₀.trees[id]?
  nextId : s.nextId = s₀.nextId
  functions : s.functions = s₀.functions

/-- A tree form of the declared type may be published. -/
theorem Displays.write {l : Lam} (h : Displays ds s₀ s) (hids : (ds.map Dual.id).Nodup) (hd : d ∈ ds)
    (hl : l.Declares d.source d.result ∧ l.tree.referencesDuals = false) :
    Displays ds s₀ ((Slot.tree d).write l s) := by
  refine ⟨fun e he k hk => ?_, fun id hid => ?_, h.nextId, h.functions⟩
  · rw [trees_write] at hk
    split at hk
    · rename_i heq
      obtain rfl : d = e := List.inj_on_of_nodup_map hids hd he heq
      cases hk
      exact hl
    · exact h.shown e he k hk
  · rw [trees_write, if_neg (hid d hd)]
    exact h.others id hid

/-- **Such duals hand out lambdas of the types they declare.** The induction is on the order in which they have
been made. -/
theorem Grounded.declaring {all : List Dual} (h : Grounded ds) (hall : ∀ d ∈ ds, d ∈ all)
    (hids : (all.map Dual.id).Nodup) (s₀ : Store) : Declaring host (Displays all s₀) (· ∈ ds) := by
  induction h with
  | nil => intro d hd; cases hd
  | @cons e ds he _ ih =>
      have hearlier : Declaring host (Displays all s₀) (· ∈ ds) :=
        ih fun d hd => hall d (List.mem_cons_of_mem _ hd)
      intro d hd
      rcases List.mem_cons.1 hd with rfl | hd
      · have hmem : d ∈ all := hall d (List.mem_cons_self ..)
        refine Triple.step (y := fun E => d.forceTree host E) rfl (fun _ => rfl) (fun _ hs => hs) ?_
        refine Triple.publishOnce (fun s l hs hl => ⟨hs.shown d hmem l hl, hs⟩)
          ((initialTree_yields hearlier he).imp (fun s hs => hs.1) fun _ _ h => h)
          (fun s l k hl hk => ⟨hl.2.shown d hmem k hk, hl.2⟩) fun s l hl _ => ?_
        exact ⟨hl.1, hl.2.write hids hmem hl.1⟩
      · exact hearlier d hd

/-! ## Histories -/

/-- The ways to make a dual of earlier ones and of lambdas that evaluate earlier ones on arguments of their source
types. What is composed meets in its type. If `exact`, a specification that is put after a projection declares
that it returns a boolean. -/
inductive ConstructsTyped (exact : Prop) (ds : List Dual) : Act Dual → Prop
  | ofLambda (kind : DualKind) {l : Lam} : Typed (· ∈ ds) l.tree →
      ConstructsTyped exact ds (Dual.ofLambda kind l)
  | compose {outer inner : Dual} : outer ∈ ds → inner ∈ ds → inner.result = outer.source →
      (exact → outer.kind = .specification → outer.result = .bool) →
      ConstructsTyped exact ds (outer.compose inner)
  | conjunction {lhs rhs : Dual} : lhs ∈ ds → rhs ∈ ds → ConstructsTyped exact ds (Dual.conjunction lhs rhs)
  | disjunction {lhs rhs : Dual} : lhs ∈ ds → rhs ∈ ds → ConstructsTyped exact ds (Dual.disjunction lhs rhs)
  | negation {predicate : Dual} : predicate ∈ ds → ConstructsTyped exact ds (Dual.negation predicate)

section Made

variable {outer inner lhs rhs : Dual} {l : Lam} {kind : DualKind} {t : Store}

theorem ofLambda_made (h : Dual.ofLambda kind l s = .ok d t) : ∃ p b, l = ⟨[p], b⟩ ∧
    d = ⟨s.nextId, kind, p.ty, b.ty, .lambda l⟩ ∧ t = { s with nextId := s.nextId + 1 } := by
  obtain ⟨p, s', hcheck, h⟩ := Act.bind_eq_ok.1 h
  obtain ⟨hparam, rfl⟩ := Act.lift_eq_ok.1 hcheck
  obtain ⟨params, b⟩ := l
  obtain rfl : params = [p] := Lambda.expectSingle_ok.1 hparam
  dsimp only at h
  split at h
  · cases h
  · cases h
    exact ⟨p, b, rfl, rfl, rfl⟩

theorem compose_made (h : outer.compose inner s = .ok d t) :
    d = ⟨s.nextId, outer.kind, inner.source, Dual.derivedResult outer.kind outer.result,
      .composed outer inner⟩ ∧ t = { s with nextId := s.nextId + 1 } := by
  unfold Dual.compose at h
  split at h
  · cases h
  · cases h
    exact ⟨rfl, rfl⟩

theorem checkSameSource_ok (h : Dual.checkSameSource lhs rhs = .ok ()) : lhs.source = rhs.source := by
  unfold Dual.checkSameSource at h
  split at h
  · assumption
  · cases h

theorem conjunction_made (h : Dual.conjunction lhs rhs s = .ok d t) : lhs.source = rhs.source ∧
    d = ⟨s.nextId, .specification, lhs.source, .bool, .conjunction lhs rhs⟩ ∧
      t = { s with nextId := s.nextId + 1 } := by
  obtain ⟨_, s', hcheck, h⟩ := Act.bind_eq_ok.1 h
  obtain ⟨hsame, rfl⟩ := Act.lift_eq_ok.1 hcheck
  cases h
  exact ⟨checkSameSource_ok hsame, rfl, rfl⟩

theorem disjunction_made (h : Dual.disjunction lhs rhs s = .ok d t) : lhs.source = rhs.source ∧
    d = ⟨s.nextId, .specification, lhs.source, .bool, .disjunction lhs rhs⟩ ∧
      t = { s with nextId := s.nextId + 1 } := by
  obtain ⟨_, s', hcheck, h⟩ := Act.bind_eq_ok.1 h
  obtain ⟨hsame, rfl⟩ := Act.lift_eq_ok.1 hcheck
  cases h
  exact ⟨checkSameSource_ok hsame, rfl, rfl⟩

/-- What is made has a new identity, and its tree form has the type it declares if `exact`. -/
theorem ConstructsTyped.made {exact : Prop} {x : Act Dual} (h : ConstructsTyped exact ds x)
    (hx : x s = .ok d t) : (exact → d.Yields (· ∈ ds) d.result) ∧ d.id = s.nextId ∧
      t = { s with nextId := s.nextId + 1 } := by
  cases h with
  | ofLambda kind hl =>
      obtain ⟨p, b, rfl, rfl, rfl⟩ := ofLambda_made hx
      exact ⟨fun _ => .lambda (Typed.lambda_iff.1 hl), rfl, rfl⟩
  | @compose outer inner ho hi hmeet hbool =>
      obtain ⟨rfl, rfl⟩ := compose_made hx
      refine ⟨fun hexact => ?_, rfl, rfl⟩
      have hresult : Dual.derivedResult outer.kind outer.result = outer.result := by
        unfold Dual.derivedResult
        cases hkind : outer.kind with
        | projection => rfl
        | specification => exact (hbool hexact hkind).symm
      exact Eq.mpr (congrArg (Dual.Yields (· ∈ ds) _) hresult) (.composed ho hi hmeet)
  | conjunction hl hr =>
      obtain ⟨hsame, rfl, rfl⟩ := conjunction_made hx
      exact ⟨fun _ => .conjunction hl hr hsame, rfl, rfl⟩
  | disjunction hl hr =>
      obtain ⟨hsame, rfl, rfl⟩ := disjunction_made hx
      exact ⟨fun _ => .disjunction hl hr hsame, rfl, rfl⟩
  | negation hp =>
      cases hx
      exact ⟨fun _ => .negation hp, rfl, rfl⟩

end Made

/-- What holds of the duals made so far. -/
structure TypedFamily (ds : List Dual) (s : Store) : Prop where
  grounded : Grounded ds
  distinct : (ds.map Dual.id).Nodup
  known : ∀ d ∈ ds, d.id < s.nextId
  shown : ∀ d ∈ ds, ∀ l, s.trees[d.id]? = some l →
    l.Declares d.source d.result ∧ l.tree.referencesDuals = false
  fresh : Fresh s

namespace TypedFamily

theorem displays (h : TypedFamily ds s) : Displays ds s s := ⟨h.shown, fun _ _ => rfl, rfl, rfl⟩

theorem declaring (h : TypedFamily ds s) (s₀ : Store) : Declaring host (Displays ds s₀) (· ∈ ds) :=
  h.grounded.declaring (fun _ hd => hd) h.distinct s₀

/-- The family stays one when tree forms are published. -/
theorem publish {t : Store} (h : TypedFamily ds s) (ht : Displays ds s t) : TypedFamily ds t := by
  refine ⟨h.grounded, h.distinct, fun d hd => ?_, ht.shown, fun id hid => ?_, fun id hid => ?_⟩
  · rw [ht.nextId]
    exact h.known d hd
  · rw [ht.nextId] at hid
    rw [ht.others id fun d hd => Nat.ne_of_lt (Nat.lt_of_lt_of_le (h.known d hd) hid)]
    exact h.fresh.trees id hid
  · rw [ht.nextId] at hid
    rw [ht.functions]
    exact h.fresh.functions id hid

/-- It grows by a dual that has a new identity. -/
theorem make (h : TypedFamily ds s) (hd : d.Yields (· ∈ ds) d.result) (hid : d.id = s.nextId) :
    TypedFamily (d :: ds) { s with nextId := s.nextId + 1 } := by
  have hnone : s.trees[d.id]? = none := h.fresh.trees _ (Nat.le_of_eq hid.symm)
  have hnew : d.id ∉ ds.map Dual.id := by
    intro hmem
    obtain ⟨e, he, heq⟩ := List.mem_map.1 hmem
    have := h.known e he
    omega
  refine ⟨.cons hd h.grounded, List.nodup_cons.2 ⟨hnew, h.distinct⟩, fun e he => ?_, fun e he l hl => ?_,
    fun id hle => h.fresh.trees id (Nat.le_of_succ_le hle), fun id hle =>
      h.fresh.functions id (Nat.le_of_succ_le hle)⟩
  · rcases List.mem_cons.1 he with rfl | he
    · exact Nat.lt_succ_of_le (Nat.le_of_eq hid)
    · exact Nat.lt_succ_of_lt (h.known e he)
  · rcases List.mem_cons.1 he with rfl | he
    · cases hnone.symm.trans hl
    · exact h.shown e he l hl

/-- The first tree form of a dual with a new identity is the one that is computed. -/
theorem next {result : Ty} (h : TypedFamily ds s) (hd : d.Yields (· ∈ ds) result) (hid : d.id = s.nextId)
    (hs₀ : s₀.trees = s.trees) : Triple host True (Displays ds s₀) (Displays ds s₀)
      (fun l _ => l.Declares d.source result) fun E => E.tree d := by
  have hnew : ∀ e ∈ ds, e.id ≠ d.id := by
    intro e he heq
    have := h.known e he
    omega
  have hempty : ∀ t, Displays ds s₀ t → (Slot.tree d).read t = none := by
    intro t ht
    have hsame := ht.others d.id hnew
    rw [hs₀, h.fresh.trees _ (Nat.le_of_eq hid.symm)] at hsame
    exact hsame
  refine Triple.step (y := fun E => d.forceTree host E) rfl (fun _ => rfl) (fun _ hs => hs) ?_
  refine Triple.publishFirst hempty (initialTree_yields (h.declaring s₀) hd) ?_
  rintro t l ⟨⟨hl, _⟩, ht⟩
  exact ⟨hempty t ht, hl⟩

end TypedFamily

theorem history_typed
    (h : History (fun ds _ => ConstructsTyped True ds) (Meanwhile host) ds s) : TypedFamily ds s := by
  induction h with
  | start hs => exact ⟨.nil, List.nodup_nil, by simp, by simp, hs⟩
  | make _ hx hd ih =>
      obtain ⟨hyields, hid, rfl⟩ := hx.made hd
      exact ih.make (hyields trivial) hid
  | @between ds s t _ hst ih =>
      cases hst with
      | tree n _ hd => exact ih.publish (((ih.declaring s _ hd).keeps n).after s ih.displays)
      | elsewhere hsame hnext hfresh =>
          refine ⟨ih.grounded, ih.distinct, fun e he => Nat.lt_of_lt_of_le (ih.known e he) hnext,
            fun e he l hl => ih.shown e he l ?_, hfresh⟩
          rw [← hsame e he]
          exact hl

/-- **Rewriting respects the declared types.** After every history of duals made of lambdas that evaluate earlier
duals on arguments of their source types, combined, and composed where types meet, with specifications that
declare a boolean after projections:

* every dual has a tree form in the end, and every tree form handed out has the function type from the declared
  source to the declared result;
* every pass over a tree with such evaluations ends, and leaves its static type: in particular an evaluation
  becomes a tree of its type;
* whatever is composed next where types meet, the body of its tree form has the type that the outer dual declares;
  this is what the composition itself declares exactly if it is no specification, or the outer one declares a
  boolean. -/
theorem tree_declares (h : History (fun ds _ => ConstructsTyped True ds) (Meanwhile host) ds s) :
    (∀ d ∈ ds, (∃ l t, Reaches host (fun E => E.tree d) s l t) ∧
      ∀ n l t, (machine host n).tree d s = .ok l t → l.ty = .func [d.source] d.result) ∧
    (∀ (pass : DualPass) (t : Expr), Typed (· ∈ ds) t →
      (∃ u s', Reaches host (fun E => pass.run E t) s u s') ∧
        ∀ n u s', pass.run (machine host n) t s = .ok u s' → u.ty = t.ty) ∧
    ∀ outer ∈ ds, ∀ inner ∈ ds, inner.result = outer.source → ∀ d s', outer.compose inner s = .ok d s' →
      (∃ l t, Reaches host (fun E => E.tree d) s' l t) ∧
        ∀ n l t, (machine host n).tree d s' = .ok l t → l.ty = .func [d.source] outer.result ∧
          (l.ty = .func [d.source] d.result ↔ (outer.kind = .specification → outer.result = .bool)) := by
  have hfamily := history_typed h
  have hdisplays := hfamily.displays
  have hdeclaring : Declaring host (Displays ds s) (· ∈ ds) := hfamily.declaring s
  refine ⟨fun d hd => ?_, fun pass t ht => ?_, fun outer ho inner hi hmeet d s' hd => ?_⟩
  · have htree := hdeclaring d hd
    exact ⟨htree.reaches trivial s hdisplays, fun n l t hl => (htree.ok n s l t hdisplays hl).1.1⟩
  · have hrun : Triple host True _ _ _ fun E => pass.run E t := ht.run hdeclaring
    exact ⟨hrun.reaches trivial s hdisplays, fun n u s' hu => (hrun.ok n s u s' hdisplays hu).1.2⟩
  · obtain ⟨rfl, rfl⟩ := compose_made hd
    -- The dual has an identity of its own, so no tree form is there yet and the first call computes it.
    have hdisplays' : Displays ds { s with nextId := s.nextId + 1 } { s with nextId := s.nextId + 1 } :=
      ⟨hfamily.shown, fun _ _ => rfl, rfl, rfl⟩
    have hnext : Triple host True (Displays ds { s with nextId := s.nextId + 1 }) _ _ fun E => E.tree _ :=
      hfamily.next (.composed ho hi hmeet) rfl rfl
    refine ⟨hnext.reaches trivial _ hdisplays', fun n l t hl => ?_⟩
    have hty : l.ty = .func [inner.source] outer.result := hnext.ok n _ l t hdisplays' hl
    refine ⟨hty, ?_⟩
    rw [hty, Ty.func.injEq, and_iff_right rfl]
    unfold Dual.derivedResult
    cases outer.kind <;> simp

/-! ## Two specifications after a projection -/

namespace Typewise

/-- `x => x + 1`. -/
def successor : Dual :=
  ⟨0, .projection, .int, .int,
    .lambda ⟨[⟨0, "x", .int⟩], .operation .add (.param ⟨0, "x", .int⟩) (Tree.constant (.int 1))⟩⟩

/-- `y => successor(y) > 0`. -/
def positive : Dual :=
  ⟨1, .specification, .int, .bool,
    .lambda ⟨[⟨1, "y", .int⟩],
      .operation .greater (successor.invoked (.param ⟨1, "y", .int⟩)) (Tree.constant (.int 0))⟩⟩

/-- `y => true`, where the literal may be anything. -/
def anything : Dual :=
  ⟨1, .specification, .int, .any, .lambda ⟨[⟨1, "y", .int⟩], .literal (.bool true) .any⟩⟩

/-- A specification after `successor`. -/
def shifted (d : Dual) : Dual := ⟨2, .specification, .int, .bool, .composed d successor⟩

/-- The store after `n` duals have been made. -/
def store (n : Nat) : Store := { Store.initial with nextId := n }

variable {exact : Prop} {host : Host}

theorem literal {v : Value} {ty : Ty} (h : ty.wrapper? = none) : Typed D (.literal v ty) :=
  .node (by simp [Tree.refersToDual, h]) fun c hc => by cases hc

theorem history : History (fun ds _ => ConstructsTyped exact ds) (Meanwhile host) [successor] (store 1) := by
  have hbody : Typed (· ∈ []) (Lambda.tree ⟨[⟨0, "x", .int⟩],
      .operation .add (.param ⟨0, "x", .int⟩) (Tree.constant (.int 1))⟩) :=
    Typed.lambda_iff.2 ((Typed.param rfl).operation (literal rfl))
  exact .make (.start fresh_initial) (.ofLambda .projection hbody) rfl

theorem history_positive :
    History (fun ds _ => ConstructsTyped exact ds) (Meanwhile host) [shifted positive, positive, successor]
      (store 3) := by
  have hcall : Typed (· ∈ [successor]) (successor.invoked (.param ⟨1, "y", .int⟩)) :=
    .invoked (List.mem_singleton.2 rfl) rfl (Typed.param rfl)
  have hpositive : Typed (· ∈ [successor]) (Lambda.tree ⟨[⟨1, "y", .int⟩],
      .operation .greater (successor.invoked (.param ⟨1, "y", .int⟩)) (Tree.constant (.int 0))⟩) :=
    Typed.lambda_iff.2 (hcall.operation (literal rfl))
  refine .make (.make history (.ofLambda .specification hpositive) rfl) (x := positive.compose successor) ?_ rfl
  exact .compose (List.mem_cons_self ..) (List.mem_cons_of_mem _ (List.mem_singleton.2 rfl)) rfl fun _ _ => rfl

theorem history_anything :
    History (fun ds _ => ConstructsTyped exact ds) (Meanwhile host) [anything, successor] (store 2) := by
  have hbody : Typed (· ∈ [successor]) (Lambda.tree ⟨[⟨1, "y", .int⟩], .literal (.bool true) .any⟩) :=
    Typed.lambda_iff.2 (literal rfl)
  exact .make history (.ofLambda .specification hbody) rfl

end Typewise

/-- The theorem at a specification that calls a projection, put after this projection. -/
theorem tree_declares_shifted : ∃ l t,
    Reaches Registry.empty.host (fun E => E.tree (Typewise.shifted Typewise.positive)) (Typewise.store 3) l t ∧
      l.ty = .func [.int] .bool := by
  obtain ⟨⟨l, t, N, hN⟩, htype⟩ :=
    (tree_declares Typewise.history_positive).1 (Typewise.shifted Typewise.positive) (List.mem_cons_self ..)
  exact ⟨l, t, ⟨N, hN⟩, htype N l t (hN N (Nat.le_refl _))⟩

/-- The condition is needed: a specification that may return anything, put after a projection, declares a boolean,
and its tree form has another type. -/
theorem tree_declares_not : ∃ (ds : List Dual) (s : Store) (d : Dual) (l : Lam) (t : Store),
    History (fun ds _ => ConstructsTyped False ds) (Meanwhile Registry.empty.host) (d :: ds) s ∧
      Reaches Registry.empty.host (fun E => E.tree d) s l t ∧ l.ty = .func [.int] .any ∧
      l.ty ≠ .func [d.source] d.result := by
  have hanything : Typewise.anything ∈ [Typewise.anything, Typewise.successor] := List.mem_cons_self ..
  have hsuccessor : Typewise.successor ∈ [Typewise.anything, Typewise.successor] :=
    List.mem_cons_of_mem _ (List.mem_singleton.2 rfl)
  have hmade : History (fun ds _ => ConstructsTyped True ds) (Meanwhile Registry.empty.host)
      [Typewise.anything, Typewise.successor] (Typewise.store 2) := Typewise.history_anything
  have hfamily := history_typed hmade
  have hnext : Triple Registry.empty.host True (Displays _ (Typewise.store 3)) _ _
      fun E => E.tree (Typewise.shifted Typewise.anything) :=
    hfamily.next (.composed hanything hsuccessor rfl) rfl rfl
  obtain ⟨l, t, hreach, hl⟩ := hnext.arrives trivial (s := Typewise.store 3)
    ⟨hfamily.shown, fun _ _ => rfl, rfl, rfl⟩
  refine ⟨[Typewise.anything, Typewise.successor], Typewise.store 3, Typewise.shifted Typewise.anything, l, t,
    ?_, hreach, hl, ?_⟩
  · exact .make Typewise.history_anything (.compose hanything hsuccessor rfl fun h => h.elim) rfl
  · rw [show l.ty = _ from hl]
    decide

end DualForm
