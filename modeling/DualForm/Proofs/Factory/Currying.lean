import DualForm.Proofs.Factory.Binding
import DualForm.Proofs.Relabelling.Hosts
import Mathlib.Logic.Equiv.Basic

/-!
# Binding two parameters at once and one after the other

* `Dual.Interchangeable host R m d e` — from the number `m` on, `d` and `e` are evaluated to the same values and
  have tree forms that print alike, up to the numbers of identities.
* `Relabelling.insertion n` — the numbers where one more identity was made under the number `n`.
* `Relabelling.exchange i j` — the numbers where two identities are exchanged.

Principal result: `curried_interchangeable` — a factory with two open parameters makes interchangeable duals
whether its arguments are bound at once or one after the other, when it is called directly and when the pass that
binds factories carries out the calls in a tree.
-/

namespace DualForm

open Act (Equivariant)

variable {R : Relabelling} {E : Engine} {host : Host} {k : Factory} {second : FormalParam} {a b : Expr}
  {s : Store}

/-! ## Numbers -/

/-- One more identity was made, under the number `n`. -/
def Relabelling.insertion (n : Nat) : Relabelling where
  map i := if i < n then i else i + 1
  injective i j h := by
    dsimp only at h
    split at h <;> split at h <;> omega
  offset := 1

theorem insertion_fixes (n : Nat) : (Relabelling.insertion n).Fixes n := fun _ hi => if_pos hi

theorem insertion_shifts (n : Nat) {i : Nat} (hi : n ≤ i) : (Relabelling.insertion n).map i = i + 1 :=
  if_neg (Nat.not_lt.2 hi)

/-- Two identities are exchanged. -/
def Relabelling.exchange (i j : Nat) : Relabelling where
  map := Equiv.swap i j
  injective := (Equiv.swap i j).injective
  offset := 0

theorem exchange_fixes {i j n : Nat} (hi : n ≤ i) (hj : n ≤ j) : (Relabelling.exchange i j).Fixes n :=
  fun m hm => Equiv.swap_apply_of_ne_of_ne (by omega) (by omega)

/-! ## Interchangeable duals -/

/-- In stores that are the same up to numbers, from the number `m` on: both duals are evaluated at the same inputs
to the same values, or fail alike, and their tree forms print alike, or fail alike. -/
structure Dual.Interchangeable (host : Host) (R : Relabelling) (m : Nat) (d e : Dual) : Prop where
  evaluate : ∀ n x s t, m ≤ s.nextId → s.Relabelled R t → Act.Corresponds R (Value.relabel R.map)
    (d.evaluate (machine host n) x s) (e.evaluate (machine host n) (x.relabel R.map) t)
  text : ∀ n s t, m ≤ s.nextId → s.Relabelled R t → Act.Corresponds R (fun text => text)
    ((Lambda.text <$> (machine host n).tree d) s) ((Lambda.text <$> (machine host n).tree e) t)

/-- A dual and the same one under other numbers are interchangeable, from where the numbers are shifted as a whole. -/
theorem interchangeable_relabel (hhost : host.Respects R) {m : Nat} (hshift : ∀ i, m ≤ i → R.map i = i + R.offset)
    (d : Dual) : d.Interchangeable host R m (d.relabel R.map) where
  evaluate n x s t hm hst := (evaluate_dual_equivariant (machine_respects hhost n) d x).corresponds s t hst
    fun i hi _ => hshift i (Nat.le_trans hm hi)
  text n s t hm hst := by
    have htext : Equivariant R (fun text => text) (Lambda.text <$> (machine host n).tree d)
        (Lambda.text <$> (machine host n).tree (d.relabel R.map)) :=
      ((machine_respects hhost n).tree d).bind fun l => .pure (Lambda.text_relabel l)
    exact htext.corresponds s t hst fun i hi _ => hshift i (Nat.le_trans hm hi)

/-! ## The pass that binds factories -/

/-- The dual of a factory bound to two more arguments. -/
def Factory.both (k : Factory) (second : FormalParam) (x y : Argument) : Act Dual :=
  Dual.create k.kind k.source k.result (.bound k.builders (k.bound ++ [(k.next, x), (second, y)]))

/-- The same, with the second argument as the pass sees it. -/
def Factory.completed (E : Engine) (k : Factory) (second : FormalParam) (x : Argument) (b : Expr) : Act Dual := do
  k.both second x (← resolvedArgument E b)

theorem run_lambda (ps : List Param) (t : Expr) : DualPass.factories.run E (.lambda ps t) = (do
    return .lambda ps (← DualPass.factories.run E t)) := by
  rw [DualPass.run_eq]
  show Visited.rebuild (.lambda ps (t, _)) = _
  simp [Visited.rebuild, Node.traverse, Node.tree]

/-- Both arguments at once. -/
theorem run_together (hk : k.second = some second) (ps : List Param) :
    DualPass.factories.run E (.lambda ps (k.bindExpr [a, b])) = (do
      let x ← resolvedArgument E a
      return .lambda ps (← k.completed E second x b).literal) := by
  have hboth : ∀ x y, k.bindArguments [x, y] = (do return .dual (← k.both second x y)) := fun x y => by
    unfold Factory.bindArguments
    rw [hk]
    rfl
  rw [run_lambda, run_bindExpr]
  simp only [List.mapM_cons, List.mapM_nil, bind_assoc, pure_bind, hboth, Factory.completed]
  rfl

/-- One after the other: in between, a factory is made. -/
theorem run_curried (hk : k.second = some second) (ps : List Param) {m : Method Invoker} (hm : isBinding m = true) :
    DualPass.factories.run E (.lambda ps (.call (k.bindFirstExpr a) m [b])) = (do
      let x ← resolvedArgument E a
      let _ ← Act.freshId
      return .lambda ps (← k.completed E second x b).literal) := by
  have hfirst : ∀ x, k.bindArguments [x] = (do
      return .factory { k with
        id := ← Act.freshId, bound := k.bound ++ [(k.next, x)], next := second, second := none }) := fun x => by
    unfold Factory.bindArguments
    rw [hk]
  have hsecond : ∀ id x y, Factory.bindArguments
      { k with id, bound := k.bound ++ [(k.next, x)], next := second, second := none } [y] =
        (do return .dual (← k.both second x y)) := fun id x y => by
    unfold Factory.bindArguments Factory.both
    rw [List.append_cons k.bound (k.next, x) [(second, y)]]
    rfl
  rw [run_lambda, run_bindFirst a b hm]
  simp only [hfirst, bind_assoc, pure_bind, bindingRule_literal, List.mapM_cons, List.mapM_nil, hsecond,
    Factory.completed]
  rfl

theorem resolvedArgument_equivariant (hE : E.Respects R) (t : Expr) :
    Equivariant R (Argument.relabel R.map) (resolvedArgument E t) (resolvedArgument E (t.relabel R.map)) :=
  (pass_equivariant hE .factories t).bind fun u => bindingArgument_equivariant hE u

theorem both_relabel {ρ : Nat → Nat} {x y : Argument} (hk : k.relabel ρ = k) (hx : x.relabel ρ = x) :
    Bindings.relabel ρ (k.bound ++ [(k.next, x), (second, y)]) =
      k.bound ++ [(k.next, x), (second, y.relabel ρ)] := by
  have hbound : k.bound.map (Bindings.relabelBinding ρ) = k.bound := by
    rw [← Factory.relabel_bound, hk]
  rw [Bindings.relabel_eq_map, List.map_append, hbound]
  simp [Bindings.relabelBinding, hx]

theorem both_equivariant {x y : Argument} (hk : k.relabel R.map = k) (hx : x.relabel R.map = x) :
    Equivariant R (Dual.relabel R.map) (k.both second x y) (k.both second x (y.relabel R.map)) := by
  have hcreate := @create_equivariant R k.kind k.source k.result
    (.bound k.builders (k.bound ++ [(k.next, x), (second, y)]))
  rw [Origin.relabel, both_relabel hk hx] at hcreate
  exact hcreate

theorem completed_equivariant (hE : E.Respects R) {x : Argument} (hk : k.relabel R.map = k)
    (hx : x.relabel R.map = x) (hb : b.relabel R.map = b) :
    Equivariant R (Dual.relabel R.map) (k.completed E second x b) (k.completed E second x b) := by
  have hargument := resolvedArgument_equivariant hE b
  rw [hb] at hargument
  exact hargument.bind fun y => both_equivariant hk hx

/-! ## Both ways -/

/-- What is bound directly. -/
theorem bound_interchangeable (hhost : host.Older s.nextId) (hk : k.second = some second)
    (hold : Older s.nextId Factory.relabel k) (hs : s.Known) {x y : Argument}
    (hx : Older s.nextId Argument.relabel x) (hy : Older s.nextId Argument.relabel y) :
    ∃ (l : Factory) (d e : Dual) (s₁ s₂ s₃ : Store), k.bindArguments [x] s = .ok (.factory l) s₁ ∧
      l.bindArguments [y] s₁ = .ok (.dual d) s₂ ∧ k.bindArguments [x, y] s₂ = .ok (.dual e) s₃ ∧
      s₃.Relabelled (.exchange d.id e.id) s₃ ∧
      d.Interchangeable host (.exchange d.id e.id) s₃.nextId e := by
  let made (id : Nat) : Dual :=
    ⟨id, k.kind, k.source, k.result, .bound k.builders (k.bound ++ [(k.next, x), (second, y)])⟩
  let rest : Factory :=
    { k with id := s.nextId, bound := k.bound ++ [(k.next, x)], next := second, second := none }
  let after (n : Nat) : Store := { s with nextId := s.nextId + n }
  have hfirst : k.bindArguments [x] s = .ok (.factory rest) (after 1) := by
    unfold Factory.bindArguments
    rw [hk]
    rfl
  have hsecond : rest.bindArguments [y] (after 1) = .ok (.dual (made (s.nextId + 1))) (after 2) := by
    unfold Factory.bindArguments
    show (do return .dual (← Dual.create _ _ _ (.bound _ (k.bound ++ [(k.next, x)] ++ [(second, y)]))) : Act Value)
      _ = _
    rw [List.append_assoc]
    rfl
  have hboth : k.bindArguments [x, y] (after 2) = .ok (.dual (made (s.nextId + 2))) (after 3) := by
    unfold Factory.bindArguments
    rw [hk]
    rfl
  have hR : (Relabelling.exchange (s.nextId + 1) (s.nextId + 2)).Fixes s.nextId :=
    exchange_fixes (by omega) (by omega)
  have hexchanged : made (s.nextId + 2) =
      (made (s.nextId + 1)).relabel (Relabelling.exchange (s.nextId + 1) (s.nextId + 2)).map := by
    show Dual.mk _ _ _ _ (.bound _ _) = Dual.mk (Equiv.swap _ _ _) _ _ _ (.bound _ (Bindings.relabel _ _))
    rw [Equiv.swap_apply_left, both_relabel (hold _ hR) (hx _ hR), hy _ hR]
  have hlater : ∀ i, s.nextId + 3 ≤ i → Equiv.swap (s.nextId + 1) (s.nextId + 2) i = i := fun i hi =>
    Equiv.swap_apply_of_ne_of_ne (by omega) (by omega)
  have hmade := interchangeable_relabel (hhost _ hR) hlater (made (s.nextId + 1))
  rw [← hexchanged] at hmade
  exact ⟨rest, _, _, _, _, _, hfirst, hsecond, hboth, { hs _ hR with nextId := rfl }, hmade⟩

/-- What the pass puts in the place of the calls. -/
theorem resolved_interchangeable (hhost : host.Older s.nextId) (hk : k.second = some second)
    (hold : Older s.nextId Factory.relabel k) (hs : s.Known) (ha : Older s.nextId Tree.relabel a)
    (hb : Older s.nextId Tree.relabel b) (ps : List Param) {m : Method Invoker} (hm : isBinding m = true) (n : Nat) :
    let together := DualPass.factories.run (machine host n) (.lambda ps (k.bindExpr [a, b])) s
    let curried := DualPass.factories.run (machine host n) (.lambda ps (.call (k.bindFirstExpr a) m [b])) s
    (∃ e t u, together = .error e t ∧ curried = .error e u) ∨
    ∃ (d e : Dual) (t u : Store), together = .ok (.lambda ps d.literal) t ∧ curried = .ok (.lambda ps e.literal) u ∧
      ∃ R : Relabelling, R.Fixes s.nextId ∧ t.Relabelled R u ∧ d.Interchangeable host R t.nextId e := by
  intro together curried
  have hE : ∀ R : Relabelling, R.Fixes s.nextId → (machine host n).Respects R := fun R hR =>
    machine_respects (hhost R hR) n
  have hfirst : ∀ R : Relabelling, R.Fixes s.nextId → Equivariant R (Argument.relabel R.map)
      (resolvedArgument (machine host n) a) (resolvedArgument (machine host n) a) := fun R hR => by
    have h := resolvedArgument_equivariant (hE R hR) a
    rwa [ha R hR] at h
  cases hx : resolvedArgument (machine host n) a s with
  | error e t =>
      refine .inl ⟨e, t, t, ?_, ?_⟩
      · exact (congrFun (run_together hk ps) s).trans (Act.bind_error hx)
      · exact (congrFun (run_curried hk ps hm) s).trans (Act.bind_error hx)
  | ok x s₁ =>
      obtain ⟨hknown, holder⟩ := hs.run hfirst
      rw [Act.final_ok hx] at hknown
      have hle : s.nextId ≤ s₁.nextId := by
        have h := (hfirst .identity fun _ _ => rfl).le_final s
        rwa [Act.final_ok hx] at h
      have hR := insertion_fixes s₁.nextId
      have hR₀ := hR.mono hle
      have hrest : Equivariant (.insertion s₁.nextId) _ (k.completed (machine host n) second x b) _ :=
        completed_equivariant (hE _ hR₀) (hold _ hR₀) (holder x s₁ hx _ hR) (hb _ hR₀)
      -- In the second run the factory in between takes the next number.
      have hcorresponds := hrest.corresponds s₁ _ (hknown _ hR) fun i hi _ => insertion_shifts _ hi
      have htogether : together = _ := (congrFun (run_together hk ps) s).trans (Act.bind_ok hx)
      have hcurried : curried = _ := ((congrFun (run_curried hk ps hm) s).trans (Act.bind_ok hx)).trans
        (Act.bind_ok rfl)
      cases hd : k.completed (machine host n) second x b s₁ with
      | error e t =>
          obtain ⟨u, he, -⟩ := (hd ▸ hcorresponds).of_error
          exact .inl ⟨e, t, u, htogether.trans (Act.bind_error hd), hcurried.trans (Act.bind_error he)⟩
      | ok d t =>
          obtain ⟨u, he, htu⟩ := (hd ▸ hcorresponds).of_ok
          have hlater : s₁.nextId ≤ t.nextId := by
            have h := hrest.le_final s₁
            rwa [Act.final_ok hd] at h
          refine .inr ⟨d, _, t, u, htogether.trans ((Act.bind_ok hd).trans rfl),
            hcurried.trans ((Act.bind_ok he).trans rfl), .insertion s₁.nextId, hR₀, htu, ?_⟩
          exact interchangeable_relabel (hhost _ hR₀) (fun i hi => insertion_shifts _ (Nat.le_trans hlater hi)) d

/-- **One after the other or at once.** Take a factory with two open parameters, made before the next number is given
out, on a host whose code depends on the numbers of nothing made later, in a store that holds nothing made later.

* Let two arguments, each a value or an accessor, be bound one after the other, and then at once. Both ways lead to a
  dual, and these are interchangeable: they are evaluated to the same values or fail alike, and their tree forms
  print alike or fail alike, where inputs and values that contain the duals themselves have them exchanged.
* Let the pass that binds factories run over a lambda whose body binds two trees one after the other, and over
  one that binds them at once. Either both runs fail for the same reason, or both put literals in the place of
  the calls, which hold interchangeable duals. -/
theorem curried_interchangeable (hhost : host.Older s.nextId) (hk : k.second = some second)
    (hold : Older s.nextId Factory.relabel k) (hs : s.Known) :
    (∀ x y, Older s.nextId Argument.relabel x → Older s.nextId Argument.relabel y →
      ∃ (l : Factory) (d e : Dual) (s₁ s₂ s₃ : Store), k.bindArguments [x] s = .ok (.factory l) s₁ ∧
        l.bindArguments [y] s₁ = .ok (.dual d) s₂ ∧ k.bindArguments [x, y] s₂ = .ok (.dual e) s₃ ∧
        s₃.Relabelled (.exchange d.id e.id) s₃ ∧
        d.Interchangeable host (.exchange d.id e.id) s₃.nextId e) ∧
    ∀ a b, Older s.nextId Tree.relabel a → Older s.nextId Tree.relabel b → ∀ ps m, isBinding m = true → ∀ n,
      let together := DualPass.factories.run (machine host n) (.lambda ps (k.bindExpr [a, b])) s
      let curried := DualPass.factories.run (machine host n) (.lambda ps (.call (k.bindFirstExpr a) m [b])) s
      (∃ e t u, together = .error e t ∧ curried = .error e u) ∨
      ∃ (d e : Dual) (t u : Store), together = .ok (.lambda ps d.literal) t ∧ curried = .ok (.lambda ps e.literal) u ∧
        ∃ R : Relabelling, R.Fixes s.nextId ∧ t.Relabelled R u ∧ d.Interchangeable host R t.nextId e := by
  exact ⟨fun x y hx hy => bound_interchangeable hhost hk hold hs hx hy,
    fun a b ha hb ps m hm n => resolved_interchangeable hhost hk hold hs ha hb ps hm n⟩

/-! ## A factory of straight lines -/

theorem known_empty (n : Nat) : Store.Known { Store.initial with nextId := n } := fun _ _ =>
  ⟨rfl, fun _ => by simp [Store.initial], fun _ => by simp [Store.initial], fun _ => by simp [Store.initial],
    fun _ => by simp [Store.initial], fun _ => by simp [Store.initial], rfl⟩

namespace Line

/-- The parameters of the factory. -/
def slope : FormalParam := ⟨"slope", .int⟩
def height : FormalParam := ⟨"height", .int⟩

/-- Makes `x => x * slope + height`. -/
def recipe : ExprRecipe :=
  .lambda [.fresh "x" "x" .int]
    (.operation .add (.operation .mul (.scoped "x") (.captured 0)) (.captured 1))

/-- The builder, registered. -/
def registry : Registry := ⟨#[.recipe recipe], #[], #[]⟩

/-- The factory. -/
def factory : Factory := ⟨0, .projection, .tree 0, [], slope, some height, .int, .int⟩

/-- An accessor that reads `4`. -/
def four : Compiled :=
  ⟨⟨1, 0, .closure ⟨[], Tree.constant (.int 4)⟩ []⟩, some ⟨[], Tree.constant (.int 4)⟩, none⟩

/-- A parameter around the calls. -/
def y : Param := ⟨2, "y", .int⟩

/-- The store in which all this has been made. -/
def store : Store := { Store.initial with nextId := 3 }

theorem registry_older : registry.host.Older store.nextId := fun R _ =>
  registry_respects ⟨by simp [registry, recipe, Builder.Fixed, ExprRecipe.Fixed, Binder.Fixed], by simp [registry],
    by simp [registry]⟩

theorem factory_older : Older store.nextId Factory.relabel factory := fun R hR => by
  simp [factory, Factory.relabel, hR 0 (by decide)]

theorem four_older : Older store.nextId Argument.relabel (.deferred four) := fun R hR => by
  simp [four, Argument.relabel, Compiled.relabel, Func.relabel, Code.relabel, Lambda.relabel, Tree.relabel,
    Tree.constant, Value.relabel, hR 1 (by decide)]

theorem y_older : Older store.nextId Tree.relabel (.param y) := fun R hR => by
  simp [y, Tree.relabel, Param.relabel, hR 2 (by decide)]

/-- `slope` is `3`, and `height` is read through an accessor, or is the parameter of the lambda around. -/
theorem curried_interchangeable_line :
    (registry.host.Older store.nextId ∧ factory.second = some height ∧
      Older store.nextId Factory.relabel factory ∧ store.Known) ∧
    (∃ (l : Factory) (d e : Dual) (s₁ s₂ s₃ : Store),
      factory.bindArguments [.value (.int 3)] store = .ok (.factory l) s₁ ∧
      l.bindArguments [.deferred four] s₁ = .ok (.dual d) s₂ ∧
      factory.bindArguments [.value (.int 3), .deferred four] s₂ = .ok (.dual e) s₃ ∧
      s₃.Relabelled (.exchange d.id e.id) s₃ ∧
      d.Interchangeable registry.host (.exchange d.id e.id) s₃.nextId e) ∧
    ∃ (d e : Dual) (t u : Store),
      DualPass.factories.run (machine registry.host 0)
        (.lambda [y] (factory.bindExpr [Tree.constant (.int 3), .param y])) store =
          .ok (.lambda [y] d.literal) t ∧
      DualPass.factories.run (machine registry.host 0)
        (.lambda [y] (.call (factory.bindFirstExpr (Tree.constant (.int 3))) factory.bindMethod [.param y])) store =
          .ok (.lambda [y] e.literal) u ∧
      ∃ R : Relabelling, R.Fixes store.nextId ∧ t.Relabelled R u ∧
        d.Interchangeable registry.host R t.nextId e := by
  have hknown : store.Known := known_empty 3
  have hsecond : factory.second = some height := rfl
  obtain ⟨hbound, hresolved⟩ := curried_interchangeable registry_older hsecond factory_older hknown
  refine ⟨⟨registry_older, hsecond, factory_older, hknown⟩, hbound _ _ (fun _ _ => rfl) four_older, ?_⟩
  have hmade : DualPass.factories.run (machine registry.host 0)
      (.lambda [y] (factory.bindExpr [Tree.constant (.int 3), .param y])) store = .ok _ _ := rfl
  have hbinding := isBinding_bindMethod factory
  rcases hresolved (Tree.constant (.int 3)) _ (fun _ _ => rfl) y_older [y] factory.bindMethod hbinding 0 with
    ⟨e, t, u, ht, -⟩ | h
  · cases hmade.symm.trans ht
  · exact h

end Line

end DualForm
