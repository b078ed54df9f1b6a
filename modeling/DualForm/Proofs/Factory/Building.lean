import DualForm.Proofs.Factory.Operands

/-!
# What builders make of captured arguments

* `Template.own`, `Template.argument` — parameters that mark the places for the parameter of the built
  lambda and for the arguments.
* `Stands q cs` — what stands at these places in a lambda built over the parameter `q`: its parameter,
  and reads of the captured arguments `cs`.
* `Builds host build formals t` — whatever the arguments are, the builder makes the template `t` over a
  new parameter.

Principal results: `function_triple` — the function form of a dual bound to values is the template
over reads of these values, compiled.
-/

namespace DualForm

variable {host : Host} {V : Vocabulary} {ends : Prop} {err P : Store → Prop} {build : BuilderId}
  {formals : List FormalParam} {template : Expr} {cs : List Captured} {q : Param} {d : Dual}

/-! ## Templates -/

namespace Template

/-- The place of the parameter. -/
def own : Param := ⟨0, "", .void⟩

/-- The place of an argument. -/
def argument (index : Nat) : Param := ⟨index + 1, "", .void⟩

theorem argument_inj {i j : Nat} (h : argument i = argument j) : i = j :=
  Nat.succ.inj (congrArg Param.id h)

theorem own_ne_argument (i : Nat) : own ≠ argument i := fun h => by cases congrArg Param.id h

/-- The places of a template whose arguments stand where functions are taken as the flags say. -/
inductive Place (flags : List Bool) : Bool → Param → Prop
  | own : Place flags false own
  | argument {index : Nat} {b : Bool} : flags[index]? = some b → Place flags b (argument index)

/-- What stands at the places: the parameter, and reads of captured arguments. -/
inductive Stands (q : Param) (cs : List Captured) : Param → Expr → Prop
  | own : Stands q cs own (.param q)
  | argument {index : Nat} {c : Captured} (id : Nat) : cs[index]? = some c →
      Stands q cs (argument index) (c.read id)

theorem Stands.of_own {u : Expr} (h : Stands q cs Template.own u) : u = .param q := by
  generalize hx : Template.own = x at h
  cases h with
  | own => rfl
  | argument => exact absurd hx (own_ne_argument _)

theorem Stands.of_argument {index : Nat} {u : Expr} (h : Stands q cs (Template.argument index) u) :
    ∃ c id, cs[index]? = some c ∧ u = c.read id := by
  generalize hx : Template.argument index = x at h
  cases h with
  | own => exact absurd hx.symm (own_ne_argument _)
  | argument id hc => exact ⟨_, id, argument_inj hx ▸ hc, rfl⟩

end Template

open Template (Place Stands)

/-- Whatever the arguments are, the builder makes a lambda with a parameter of its own out of the
template, and publishes nothing. -/
structure Builds (host : Host) (build : BuilderId) (formals : List FormalParam) (template : Expr) :
    Prop where
  lambda : ∀ (cs : List Captured) (s : Store), cs.map Captured.formal = formals →
    Triple host True (Beside s) (· = s)
      (fun l t => (∃ q u, l = ⟨[q], u⟩ ∧ s.nextId ≤ q.id ∧ template.Filled (Stands q cs) u) ∧ Beside s t)
      fun E => host.buildTree E build cs

/-- Building keeps every stable invariant. The parameter is none that was known before. -/
theorem Builds.triple (h : Builds host build formals template) (hcs : cs.map Captured.formal = formals)
    {bound : Nat} (hP : Stable P) (herr : ∀ s, P s → err s) (hbound : ∀ s, P s → bound ≤ s.nextId) :
    Triple host ends err P (fun l s => (∃ q u, l = ⟨[q], u⟩ ∧ bound ≤ q.id ∧
      template.Filled (Stands q cs) u) ∧ P s) fun E => host.buildTree E build cs := by
  refine Triple.of_each fun s hs => ?_
  obtain ⟨hok, herror, hreaches⟩ := h.lambda cs s hcs
  refine ⟨fun n s' l t hs' hl => ?_, fun n s' e t hs' he => ?_, fun _ => hreaches trivial⟩
  swap
  · exact herr t (hP.beside (herror n s' e t hs' he) hs)
  obtain ⟨⟨q, u, hl, hq, hu⟩, hbeside⟩ := hok n s' l t hs' hl
  exact ⟨⟨q, u, hl, Nat.le_trans (hbound s hs) hq, hu⟩, hP.beside hbeside hs⟩

/-! ## Functions -/

/-- Parameters bound to values. -/
def Bindings.ofValues (pairs : List (FormalParam × Value)) : Bindings :=
  pairs.map fun x => (x.1, .value x.2)

/-- The same, as builders see them. -/
def Captured.ofValues (pairs : List (FormalParam × Value)) : List Captured :=
  pairs.map fun x => ⟨x.1, .value x.2⟩

theorem Captured.ofValues_formals (pairs : List (FormalParam × Value)) :
    (ofValues pairs).map Captured.formal = pairs.map Prod.fst := by
  unfold ofValues
  rw [List.map_map]
  rfl

theorem Captured.ofValues_get {pairs : List (FormalParam × Value)} {i : Nat} {c : Captured}
    (h : (ofValues pairs)[i]? = some c) : ∃ x, pairs[i]? = some x ∧ c = ⟨x.1, .value x.2⟩ := by
  unfold ofValues at h
  rw [List.getElem?_map, Option.map_eq_some_iff] at h
  obtain ⟨x, hx, rfl⟩ := h
  exact ⟨x, hx, rfl⟩

theorem Bindings.resolved_ofValues (E : Engine) : ∀ pairs : List (FormalParam × Value),
    (ofValues pairs).resolved E = pure (Captured.ofValues pairs)
  | [] => rfl
  | x :: pairs => by
      have hrest := resolved_ofValues E pairs
      unfold Bindings.resolved at hrest ⊢
      rw [ofValues, List.map_cons, List.mapM_cons, ← ofValues, hrest]
      rfl

theorem Bindings.function_ofValues (E : Engine) (builders : Builders)
    (pairs : List (FormalParam × Value)) : (ofValues pairs).function host E builders =
      builders.buildFunction host E (Captured.ofValues pairs) := by
  have hdeferred : (ofValues pairs).isDeferred = false := by
    simp [Bindings.isDeferred, ofValues, Argument.isDeferred]
  unfold Bindings.function Bindings.built
  rw [if_neg (by rw [hdeferred]; exact Bool.false_ne_true), resolved_ofValues]
  rfl

/-- Compiling a lambda gives out an identity. -/
theorem compile_triple (hP : Stable P) (l : Lam) :
    Triple host ends err P (fun f s => (∃ id, f = ⟨id, l.arity, .closure l []⟩) ∧ P s)
      fun _ => compile l :=
  Triple.of_run fun s hs => ⟨_, _, rfl, ⟨s.nextId, rfl⟩, hP.beside (beside_identity s) hs⟩

/-- What is built from captured arguments is the template over reads of them, compiled. -/
theorem buildFunction_triple (hbuild : Builds host build formals template)
    (hcs : cs.map Captured.formal = formals) (hP : Stable P) (herr : ∀ s, P s → err s) :
    Triple host ends err P (fun f s => (∃ id q u, f = ⟨id, 1, .closure ⟨[q], u⟩ []⟩ ∧
      template.Filled (Stands q cs) u) ∧ P s) fun E => Builders.buildFunction host E (.tree build) cs := by
  refine Triple.congr (y := fun E => do compile (← host.buildTree E build cs)) (fun _ => rfl) ?_
  refine (hbuild.triple hcs hP herr fun _ _ => Nat.zero_le _).bind fun l =>
    Triple.assuming (fun s hs => hs.1) ?_
  rintro ⟨q, u, rfl, _, hu⟩
  refine (compile_triple hP ⟨[q], u⟩).imp (fun s hs => hs.2) ?_
  rintro f s ⟨⟨id, rfl⟩, hs⟩
  exact ⟨⟨id, q, u, rfl, hu⟩, hs⟩

/-- **The function form of a dual bound to values is the template over reads of them,** compiled. -/
theorem function_triple (hbuild : Builds host build formals template)
    {pairs : List (FormalParam × Value)} (hpairs : pairs.map Prod.fst = formals)
    (ho : d.origin = .bound (.tree build) (Bindings.ofValues pairs)) (hP : Stable P)
    (herr : ∀ s, P s → err s) (hnone : ∀ s, P s → s.functions[d.id]? = none) {P' : Store → Prop}
    (hwrite : ∀ s f, P s → P' ((Slot.function d).write f s)) :
    Triple host ends err P (fun f s => (∃ id q u, f = ⟨id, 1, .closure ⟨[q], u⟩ []⟩ ∧
      template.Filled (Stands q (Captured.ofValues pairs)) u) ∧ P' s) fun E => E.function d := by
  refine Triple.step (y := fun E => d.forceFunction host E) rfl (fun _ => rfl) herr
    (Triple.publishFirst hnone (Q := fun f s => (∃ id q u, f = ⟨id, 1, .closure ⟨[q], u⟩ []⟩ ∧
      template.Filled (Stands q (Captured.ofValues pairs)) u) ∧ P s) ?_
      fun s f hf => ⟨hnone s hf.2, hf.1, hwrite s f hf.2⟩)
  refine Triple.congr (fun E => show d.initialFunction host E =
    Builders.buildFunction host E (.tree build) (Captured.ofValues pairs) from ?_) ?_
  · unfold Dual.initialFunction
    rw [ho]
    exact Bindings.function_ofValues E _ pairs
  · exact buildFunction_triple hbuild ((Captured.ofValues_formals pairs).trans hpairs) hP herr

end DualForm
