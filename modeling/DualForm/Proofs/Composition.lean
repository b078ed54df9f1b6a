import DualForm.Composition

/-!
# What composing lambdas makes

One equivalence for each way to make a lambda of lambdas: it succeeds exactly on lambdas with one
parameter, and with which result.
-/

namespace DualForm

theorem except_bind_ok {α β : Type} {x : Except Error α} {f : α → Except Error β} {b : β} :
    (x >>= f) = .ok b ↔ ∃ a, x = .ok a ∧ f a = .ok b := by
  cases x with
  | error e => exact ⟨fun h => (nomatch h), fun ⟨_, h, _⟩ => (nomatch h)⟩
  | ok a => exact ⟨fun h => ⟨a, rfl, h⟩, fun ⟨a', ha, h⟩ => by cases ha; exact h⟩

theorem except_pure_ok {α : Type} {a b : α} : (pure a : Except Error α) = .ok b ↔ b = a :=
  ⟨fun h => by cases h; rfl, fun h => by rw [h]; rfl⟩

namespace Lambda

theorem singleParam_ok {l : Lam} {p : Param} : l.singleParam = .ok p ↔ l.params = [p] := by
  unfold singleParam
  constructor
  · intro h
    split at h
    · rename_i q hq
      cases h; exact hq
    · cases h
  · intro h
    rw [h]

theorem expectSingle_ok {l : Lam} {argument : String} {p : Param} :
    l.expectSingle argument = .ok p ↔ l.params = [p] := by
  unfold expectSingle
  constructor
  · intro h
    split at h
    · rename_i q hq
      cases h; exact hq
    · cases h
  · intro h
    rw [h]

theorem applied_ok {l : Lam} {arg t : Expr} :
    l.applied arg = .ok t ↔ ∃ p, l.params = [p] ∧ t = Tree.substitute p arg l.body := by
  unfold applied
  simp only [except_bind_ok, singleParam_ok, except_pure_ok]

theorem combined_ok {op : BinaryOp} {lhs rhs l : Lam} : combined op lhs rhs = .ok l ↔
    ∃ p, lhs.params = [p] ∧ ∃ q, rhs.params = [q] ∧
      l = ⟨[p], .operation op lhs.body (Tree.substitute q (.param p) rhs.body)⟩ := by
  unfold combined
  simp only [except_bind_ok, singleParam_ok, except_pure_ok]

theorem negation_ok {predicate l : Lam} : negation predicate = .ok l ↔
    ∃ p, predicate.params = [p] ∧ l = ⟨[p], predicate.body.complement⟩ := by
  unfold negation
  simp only [except_bind_ok, singleParam_ok, except_pure_ok]

/-- The parameter of the inner lambda is kept. -/
theorem composed_ok {f g l : Lam} : composed f g = .ok l ↔
    ∃ x, f.params = [x] ∧ ∃ p, g.params = [p] ∧ l = ⟨[p], Tree.substitute x g.body f.body⟩ := by
  unfold composed
  simp only [except_bind_ok, singleParam_ok, except_pure_ok]

/-- A lambda after another one is the composition, with the roles exchanged. -/
theorem continued_ok {f g l : Lam} : continued f g = .ok l ↔ composed g f = .ok l := by
  rw [composed_ok]
  unfold continued
  simp only [except_bind_ok, singleParam_ok, except_pure_ok]
  constructor
  · rintro ⟨s, hs, x, hx, h⟩; exact ⟨x, hx, s, hs, h⟩
  · rintro ⟨x, hx, s, hs, h⟩; exact ⟨s, hs, x, hx, h⟩

end Lambda

end DualForm
