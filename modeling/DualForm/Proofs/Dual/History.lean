import DualForm.Proofs.Outcome

/-!
# Histories of duals

* `Fresh s` — nothing is published in `s` under an identity that has not been given out.
* `Makes P x` — what `x` makes is a dual with an identity of its own and an origin with `P`, and
  nothing else happens.
* `History Make Between ds s` — the duals `ds` have been made one after the other, latest first, by
  actions with `Make`, with changes of the store with `Between` between them, up to the store `s`.

Principal results: one lemma for each way to make a dual (`ofLambda_makes` and its companions), and
`Makes.fresh` — a new dual has no form yet.
-/

namespace DualForm

variable {P : Origin → Prop} {α : Type}

/-- Nothing is published under an identity that has not been given out. -/
structure Fresh (s : Store) : Prop where
  trees : ∀ id, s.nextId ≤ id → s.trees[id]? = none
  functions : ∀ id, s.nextId ≤ id → s.functions[id]? = none

theorem fresh_initial : Fresh .initial :=
  ⟨fun id _ => by simp [Store.initial], fun id _ => by simp [Store.initial]⟩

/-- The action makes a dual with an identity of its own and an origin with `P`, and does nothing
else. -/
structure Makes (P : Origin → Prop) (x : Act Dual) : Prop where
  made : ∀ s d t, x s = .ok d t → P d.origin ∧ s.nextId ≤ d.id ∧ t = { s with nextId := d.id + 1 }

/-- Duals made one after the other, latest first, with other changes of the store between. -/
inductive History (Make : List Dual → Store → Act Dual → Prop)
    (Between : List Dual → Store → Store → Prop) : List Dual → Store → Prop
  | start {s : Store} : Fresh s → History Make Between [] s
  | make {ds : List Dual} {s t : Store} {x : Act Dual} {d : Dual} : History Make Between ds s →
      Make ds s x → x s = .ok d t → History Make Between (d :: ds) t
  | between {ds : List Dual} {s t : Store} : History Make Between ds s → Between ds s t →
      History Make Between ds t

namespace Makes

theorem fail (e : Error) : Makes P (Act.fail e) :=
  ⟨fun s d t hx => by rw [Act.fail_run] at hx; cases hx⟩

theorem create {origin : Origin} (h : P origin) (kind : DualKind) (source result : Ty) :
    Makes P (Dual.create kind source result origin) := by
  refine ⟨fun s d t hx => ?_⟩
  cases hx
  exact ⟨h, Nat.le_refl _, rfl⟩

theorem check {e : Except Error α} {f : α → Act Dual} (h : ∀ a, Makes P (f a)) :
    Makes P (Act.lift e >>= f) := by
  refine ⟨fun s d t hx => ?_⟩
  obtain ⟨a, s', ha, hf⟩ := Act.bind_eq_ok.1 hx
  obtain ⟨_, rfl⟩ := Act.lift_eq_ok.1 ha
  exact (h a).made s d t hf

/-- A lambda is compiled first. -/
theorem compiled {l : Lam} {f : Compiled → Act Dual}
    (h : ∀ func, Makes P (f ⟨func, some l, none⟩)) : Makes P (Compiled.ofLambda l >>= f) := by
  refine ⟨fun s d t hx => ?_⟩
  obtain ⟨c, s', hc, hf⟩ := Act.bind_eq_ok.1 hx
  cases hc
  obtain ⟨ho, hid, rfl⟩ := (h _).made _ d t hf
  exact ⟨ho, Nat.le_of_succ_le hid, rfl⟩

/-- A new dual has no form yet. -/
theorem fresh {x : Act Dual} (h : Makes P x) {s t : Store} {d : Dual} (hx : x s = .ok d t)
    (hs : Fresh s) : Fresh t ∧ t.trees[d.id]? = none ∧ t.functions[d.id]? = none := by
  obtain ⟨_, hid, rfl⟩ := h.made s d t hx
  refine ⟨⟨fun id h => hs.trees id ?_, fun id h => hs.functions id ?_⟩, hs.trees _ hid,
    hs.functions _ hid⟩
  · exact Nat.le_trans hid (Nat.le_of_succ_le h)
  · exact Nat.le_trans hid (Nat.le_of_succ_le h)

end Makes

/-! ## The ways to make a dual -/

theorem ofLambda_makes {l : Lam} (h : P (.lambda l)) (kind : DualKind) :
    Makes P (Dual.ofLambda kind l) := by
  refine Makes.check fun p => ?_
  dsimp only
  split
  · exact Makes.fail _
  · exact Makes.create h ..

theorem ofCompiled_makes {c : Compiled} (h : P (.compiled c)) (kind : DualKind) (source result : Ty) :
    Makes P (Dual.ofCompiled kind source result c) :=
  Makes.check fun _ => Makes.create h ..

theorem applyTo_makes {outer : Dual} {l : Lam}
    (h : ∀ func, P (.precomposed outer ⟨func, some l, none⟩)) : Makes P (outer.applyTo l) :=
  Makes.check fun _ => Makes.compiled fun func => Makes.create (h func) ..

theorem applyToFunc_makes {outer : Dual} {c : Compiled} (h : P (.precomposed outer c)) (source : Ty) :
    Makes P (outer.applyToFunc source c) :=
  Makes.check fun _ => Makes.create h ..

theorem continueWith_makes {inner : Dual} {l : Lam}
    (h : ∀ func, P (.postcomposed inner ⟨func, some l, none⟩)) : Makes P (inner.continueWith l) :=
  Makes.check fun _ => Makes.compiled fun func => Makes.create (h func) ..

theorem continueWithFunc_makes {inner : Dual} {c : Compiled} (h : P (.postcomposed inner c))
    (result : Ty) : Makes P (inner.continueWithFunc result c) :=
  Makes.check fun _ => Makes.create h ..

theorem compose_makes {outer inner : Dual} (h : P (.composed outer inner)) :
    Makes P (outer.compose inner) := by
  unfold Dual.compose
  split
  · exact Makes.fail _
  · exact Makes.create h ..

theorem conjunction_makes {lhs rhs : Dual} (h : P (.conjunction lhs rhs)) :
    Makes P (Dual.conjunction lhs rhs) := Makes.check fun _ => Makes.create h ..

theorem disjunction_makes {lhs rhs : Dual} (h : P (.disjunction lhs rhs)) :
    Makes P (Dual.disjunction lhs rhs) := Makes.check fun _ => Makes.create h ..

theorem negation_makes {predicate : Dual} (h : P (.negation predicate)) :
    Makes P (Dual.negation predicate) := Makes.create h ..

end DualForm
