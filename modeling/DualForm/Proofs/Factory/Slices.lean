import DualForm.Proofs.Factory.Binding

/-!
# Factories over shared parameters

A factory can also be kept as the list of its declared parameters, which all factories bound from it share, and the
list of the arguments bound so far, which grows. The open parameters are then a slice of the declared ones, found by
counting arguments, and a slice exists only within the bounds of its list.

* `Slice.after?`, `Slice.before?` — slices of a list, none out of range.
* `Factory.Core` — declared parameters and bound arguments, and everything that is read or made by slicing them:
  `none` where a slice or an index is out of range.
* `Factory.core` — a factory, kept that way; `Value.held` — a value, with a factory kept that way.
* `Factory.InRange k` — every slice read of `k` succeeds, with the result of the definition in use.
* `Factory.ByCount k` — what `k` makes of arguments depends on how many there are.

Principal results: `Factory.inRange` and `Factory.byCount`, for every factory.
-/

namespace DualForm

/-! ## Slices -/

namespace Slice

variable {α : Type}

/-- The elements from a position on. The position may be the length, and no more. -/
def after? (xs : List α) (n : Nat) : Option (List α) :=
  if n ≤ xs.length then some (xs.drop n) else none

/-- The elements before a position, which may be the length, and no more. -/
def before? (xs : List α) (n : Nat) : Option (List α) :=
  if n ≤ xs.length then some (xs.take n) else none

theorem after_append {xs ys : List α} {n : Nat} (h : n ≤ ys.length) :
    after? (xs ++ ys) (xs.length + n) = some (ys.drop n) := by
  unfold after?
  rw [if_pos (by simpa using h), List.drop_append, List.drop_eq_nil_of_le (by omega), Nat.add_sub_cancel_left]
  rfl

end Slice

/-! ## Declared parameters and bound arguments -/

/-- A factory as its declared parameters and the arguments bound so far. -/
structure Factory.Core where
  kind : DualKind
  builders : Builders
  /-- All declared parameters, bound or not. -/
  params : List FormalParam
  /-- Arguments of the first of them. -/
  bound : List Argument
  source : Ty
  result : Ty

/-- A value, with factories as cores under their identity. The number is that of the open parameters a
factory has by its type. -/
inductive Factory.Held where
  | dual (d : Dual)
  | factory (id arity : Nat) (core : Factory.Core)
  | other (v : Value)

namespace Factory

namespace Core

/-- The open parameters. -/
def remaining? (c : Core) : Option (List FormalParam) := Slice.after? c.params c.bound.length

/-- The first open parameter. -/
def param? (c : Core) : Option FormalParam := do (← c.remaining?)[0]?

/-- The types of the open parameters. -/
def types? (c : Core) : Option (List Ty) := return (← c.remaining?).map FormalParam.ty

/-- The type of a factory over the core. -/
def signature? (c : Core) : Option Ty := return Ty.ofFactory c.kind (← c.types?) c.source c.result

/-- A binding method of the type. -/
def bindingMethod (signature : Ty) (name : String) (params : List Ty) (result : Ty) : Method Invoker :=
  { declaring := .ofTy signature, name, params, result, isStatic := false, invoker := .bind }

/-- Method that binds every open parameter. -/
def bindMethod? (c : Core) : Option (Method Invoker) :=
  return bindingMethod (← c.signature?) bindName (← c.types?) (Ty.ofDual c.kind c.source c.result)

/-- Method that binds the first open parameter. -/
def bindFirstMethod? (c : Core) : Option (Method Invoker) := do
  let types ← c.types?
  let rest ← Slice.after? types 1
  return bindingMethod (← c.signature?) bindFirstName (← Slice.before? types 1)
    (Ty.ofFactory c.kind rest c.source c.result)

/-- The core with more arguments. The open parameters are counted for the trace. -/
def append? (c : Core) (args : List Argument) : Option Core := do
  let _ ← c.remaining?
  return { c with bound := c.bound ++ args }

/-- The dual over the core: parameters and arguments are paired up to the end of the shorter list. -/
def realize (c : Core) : Act Held :=
  return .dual (← Dual.create c.kind c.source c.result (.bound c.builders (c.params.zip c.bound)))

/-- A factory over the core. -/
def hold (c : Core) (arity : Nat) : Act Held := return .factory (← Act.freshId) arity c

/-- Binds all open parameters. -/
def applied? (c : Core) (args : List Argument) : Option (Act Held) := return (← c.append? args).realize

/-- Binds the first of two open parameters. -/
def appliedFirst? (c : Core) (arg : Argument) : Option (Act Held) := return (← c.append? [arg]).hold 1

/-- Refuses to bind nothing, and to bind more than is open. -/
def checkArity (expected found : Nat) : Except Error Unit :=
  if found = 0 ∨ expected < found then .error (.arityMismatch expected found) else .ok ()

/-- Binds leading parameters of a factory that has one by its type. -/
def bindOne? (c : Core) (args : List Argument) : Option (Act Held) :=
  match checkArity 1 args.length with
  | .error e => some (Act.fail e)
  | .ok () => return (← c.append? args).realize

/-- Binds leading parameters of a factory that has two by its type. -/
def bindTwo? (c : Core) (args : List Argument) : Option (Act Held) :=
  match checkArity 2 args.length with
  | .error e => some (Act.fail e)
  | .ok () => do
      let c ← c.append? args
      if (← c.remaining?).isEmpty then return c.realize else return c.hold 1

end Core

/-- The factory as declared parameters and bound arguments. -/
def core (k : Factory) : Core :=
  ⟨k.kind, k.builders, k.bound.map Prod.fst ++ k.openParams, k.bound.map Prod.snd, k.source, k.result⟩

end Factory

/-- The value with a factory as its core. -/
def Value.held : Value → Factory.Held
  | .dual d => .dual d
  | .factory k => .factory k.id k.arity k.core
  | v => .other v

namespace Factory

variable {k : Factory} {second : FormalParam}

/-! ## Reads -/

/-- Each further argument takes a parameter away from the slice. -/
theorem core_remaining_append (k : Factory) (args : List Argument) (h : args.length ≤ k.openParams.length) :
    Core.remaining? { k.core with bound := k.core.bound ++ args } = some (k.openParams.drop args.length) := by
  have hbound : (k.bound.map Prod.snd ++ args).length = (k.bound.map Prod.fst).length + args.length := by
    simp
  unfold Core.remaining? core
  rw [hbound]
  exact Slice.after_append h

@[simp] theorem core_remaining (k : Factory) : k.core.remaining? = some k.openParams := by
  simpa using core_remaining_append k [] (Nat.zero_le _)

@[simp] theorem core_types (k : Factory) : k.core.types? = some (k.openParams.map FormalParam.ty) := by
  simp [Core.types?]

@[simp] theorem core_signature (k : Factory) : k.core.signature? = some k.signature := by
  simp [Core.signature?]
  rfl

theorem core_bindMethod (k : Factory) : k.core.bindMethod? = some k.bindMethod := by
  simp [Core.bindMethod?]
  rfl

theorem core_bindFirstMethod (k : Factory) : k.core.bindFirstMethod? = some k.bindFirstMethod := by
  simp [Core.bindFirstMethod?, Slice.after?, Slice.before?, openParams]
  rfl

/-! ## Binding -/

@[simp] theorem core_append (k : Factory) (args : List Argument) :
    k.core.append? args = some { k.core with bound := k.core.bound ++ args } := by
  simp [Core.append?]

/-- The pairs made of a core are the bindings, and the open parameters with the new arguments. -/
theorem core_zip (k : Factory) (args : List Argument) :
    k.core.params.zip (k.core.bound ++ args) = k.bound ++ k.openParams.zip args := by
  unfold core
  dsimp only
  rw [List.zip_append (by simp)]
  simp [List.zip_map']

theorem core_realize (k : Factory) (args : List Argument) :
    Core.realize { k.core with bound := k.core.bound ++ args } =
      Value.held <$> k.realize (k.bound ++ k.openParams.zip args) := by
  simp only [Core.realize, core_zip, realize, map_bind, map_pure]
  rfl

/-- The core of what is left when the first of two parameters is bound. -/
theorem core_rest (hs : k.second = some second) (id : Nat) (a : Argument) :
    core { k.rest second with id := id, bound := k.bound ++ [(k.next, a)] } =
      { k.core with bound := k.core.bound ++ [a] } := by
  simp [core, rest, openParams, hs]

theorem core_hold (hs : k.second = some second) (a : Argument) :
    Core.hold { k.core with bound := k.core.bound ++ [a] } 1 = Value.held <$> k.bindArguments [a] := by
  rw [bindArguments_first hs, ← core_rest hs 0 a]
  simp only [Core.hold, map_bind, map_pure]
  rfl

/-- Any other number of arguments is refused. -/
theorem bindArguments_mismatch {args : List Argument} (hall : args.length ≠ k.arity)
    (hfirst : ¬ (k.arity = 2 ∧ args.length = 1)) :
    k.bindArguments args = Act.fail (.arityMismatch k.arity args.length) := by
  obtain ⟨id, kind, builders, bound, next, second, source, result⟩ := k
  cases second with
  | none => match args, hall with
    | [], _ | _ :: _ :: _, _ => rfl
    | [_], hall => exact absurd rfl hall
  | some second => match args, hall, hfirst with
    | [], _, _ | _ :: _ :: _ :: _, _, _ => rfl
    | [_], _, hfirst => exact absurd ⟨rfl, rfl⟩ hfirst
    | [_, _], hall, _ => exact absurd rfl hall

theorem arity_eq_two : k.arity = 2 ↔ ∃ second, k.second = some second := by
  cases h : k.second <;> simp [arity, openParams, h]

theorem arity_cases (k : Factory) : k.arity = 1 ∨ k.arity = 2 := by
  cases h : k.second <;> simp [arity, openParams, h]

theorem core_apply {args : List Argument} (h : args.length = k.arity) :
    k.core.applied? args = some (Value.held <$> k.bindArguments args) := by
  rw [bindArguments_all h, ← core_realize]
  simp [Core.applied?]

theorem core_applyFirst (h : k.arity = 2) (a : Argument) :
    k.core.appliedFirst? a = some (Value.held <$> k.bindArguments [a]) := by
  obtain ⟨second, hs⟩ := arity_eq_two.1 h
  rw [← core_hold hs]
  simp [Core.appliedFirst?]

theorem checkArity_ok {expected found : Nat} (h : ¬ (found = 0 ∨ expected < found)) :
    Core.checkArity expected found = .ok () := if_neg h

theorem checkArity_error {expected found : Nat} (h : found = 0 ∨ expected < found) :
    Core.checkArity expected found = .error (.arityMismatch expected found) := if_pos h

theorem held_mismatch {args : List Argument} (hall : args.length ≠ k.arity)
    (hfirst : ¬ (k.arity = 2 ∧ args.length = 1)) :
    Value.held <$> k.bindArguments args = Act.fail (.arityMismatch k.arity args.length) := by
  rw [bindArguments_mismatch hall hfirst]
  rfl

theorem core_bindOne (h : k.arity = 1) (args : List Argument) :
    k.core.bindOne? args = some (Value.held <$> k.bindArguments args) := by
  unfold Core.bindOne?
  by_cases hargs : args.length = 1
  · rw [checkArity_ok (by omega)]
    exact core_apply (hargs.trans h.symm)
  · rw [checkArity_error (by omega), held_mismatch (by omega) (by omega), h]

theorem core_bindTwo (h : k.arity = 2) (args : List Argument) :
    k.core.bindTwo? args = some (Value.held <$> k.bindArguments args) := by
  have hopen : k.openParams.length = 2 := h
  unfold Core.bindTwo?
  by_cases hargs : args.length = 0 ∨ 2 < args.length
  · rw [checkArity_error hargs, held_mismatch (by omega) (by omega), h]
  · rw [checkArity_ok hargs]
    -- The slice after the new arguments is read too, so there may not be more of them than are open.
    have hle : args.length ≤ k.openParams.length := by omega
    simp only [core_append, core_remaining_append k args hle, bind, Option.bind_some, List.isEmpty_iff,
      List.drop_eq_nil_iff]
    by_cases hall : args.length = 2
    · rw [if_pos (by omega), bindArguments_all (hall.trans h.symm), ← core_realize]
      rfl
    · obtain ⟨a, rfl⟩ := List.length_eq_one_iff.1 (show args.length = 1 by omega)
      obtain ⟨second, hs⟩ := arity_eq_two.1 h
      rw [if_neg (by omega), ← core_hold hs]
      rfl

/-! ## Every factory -/

/-- Every slice that is read of a factory exists. What is read and made by slicing is what the factory
reads and makes. -/
structure InRange (k : Factory) : Prop where
  remaining : k.core.remaining? = some k.openParams
  param : k.core.param? = some k.next
  signature : k.core.signature? = some k.signature
  bindMethod : k.core.bindMethod? = some k.bindMethod
  bindFirstMethod : k.arity = 2 → k.core.bindFirstMethod? = some k.bindFirstMethod
  apply : ∀ args, args.length = k.arity → k.core.applied? args = some (Value.held <$> k.bindArguments args)
  applyFirst : k.arity = 2 → ∀ a, k.core.appliedFirst? a = some (Value.held <$> k.bindArguments [a])
  bindOne : k.arity = 1 → ∀ args, k.core.bindOne? args = some (Value.held <$> k.bindArguments args)
  bindTwo : k.arity = 2 → ∀ args, k.core.bindTwo? args = some (Value.held <$> k.bindArguments args)

/-- **No slice of a factory is out of range.** -/
theorem inRange (k : Factory) : k.InRange where
  remaining := core_remaining k
  param := by simp [Core.param?, openParams]
  signature := core_signature k
  bindMethod := core_bindMethod k
  bindFirstMethod _ := core_bindFirstMethod k
  apply _ := core_apply
  applyFirst := core_applyFirst
  bindOne := core_bindOne
  bindTwo := core_bindTwo

/-- What a factory makes of arguments depends on how many there are: a dual of as many as are open, a
factory with the second parameter left of one where two are open, and an error, which changes nothing,
of any other number. -/
structure ByCount (k : Factory) : Prop where
  dual : ∀ args s, (∃ d t, k.bindArguments args s = .ok (.dual d) t) ↔ args.length = k.arity
  factory : ∀ args s, (∃ l t, k.bindArguments args s = .ok (.factory l) t) ↔ k.arity = 2 ∧ args.length = 1
  left : ∀ args s l t, k.bindArguments args s = .ok (.factory l) t →
    ∃ second, k.openParams = [k.next, second] ∧ l.openParams = [second]
  mismatch : ∀ args s, k.bindArguments args s = .error (.failed (.arityMismatch k.arity args.length)) s ↔
    args.length ≠ k.arity ∧ ¬ (k.arity = 2 ∧ args.length = 1)

theorem bindArguments_all_run {args : List Argument} (h : args.length = k.arity) (s : Store) :
    k.bindArguments args s = .ok (.dual ⟨s.nextId, k.kind, k.source, k.result,
      .bound k.builders (k.bound ++ k.openParams.zip args)⟩) { s with nextId := s.nextId + 1 } := by
  rw [bindArguments_all h]
  rfl

theorem bindArguments_first_run {args : List Argument} (h : k.arity = 2 ∧ args.length = 1) (s : Store) :
    ∃ second a, k.second = some second ∧ args = [a] ∧ k.bindArguments args s =
      .ok (.factory { k.rest second with id := s.nextId, bound := k.bound ++ [(k.next, a)] })
        { s with nextId := s.nextId + 1 } := by
  obtain ⟨second, hs⟩ := arity_eq_two.1 h.1
  obtain ⟨a, rfl⟩ := List.length_eq_one_iff.1 h.2
  refine ⟨second, a, hs, rfl, ?_⟩
  rw [bindArguments_first hs]
  rfl

/-- What is bound, where binding succeeds. -/
theorem bindArguments_ok {args : List Argument} {s t : Store} {v : Value} (h : k.bindArguments args s = .ok v t) :
    (args.length = k.arity ∧ v = .dual ⟨s.nextId, k.kind, k.source, k.result,
      .bound k.builders (k.bound ++ k.openParams.zip args)⟩) ∨
    ∃ second a, k.second = some second ∧ args = [a] ∧
      v = .factory { k.rest second with id := s.nextId, bound := k.bound ++ [(k.next, a)] } := by
  by_cases hall : args.length = k.arity
  · cases (bindArguments_all_run hall s).symm.trans h
    exact .inl ⟨hall, rfl⟩
  by_cases hfirst : k.arity = 2 ∧ args.length = 1
  · obtain ⟨second, a, hs, rfl, hrun⟩ := bindArguments_first_run hfirst s
    cases hrun.symm.trans h
    exact .inr ⟨second, a, hs, rfl, rfl⟩
  · rw [bindArguments_mismatch hall hfirst] at h
    cases h

/-- **What a factory makes of arguments depends on how many there are.** -/
theorem byCount (k : Factory) : k.ByCount where
  dual args s := by
    refine ⟨?_, fun h => ⟨_, _, bindArguments_all_run h s⟩⟩
    rintro ⟨d, t, h⟩
    rcases bindArguments_ok h with ⟨hall, -⟩ | ⟨_, _, _, _, hv⟩
    · exact hall
    · cases hv
  factory args s := by
    constructor
    · rintro ⟨l, t, h⟩
      rcases bindArguments_ok h with ⟨_, hv⟩ | ⟨second, a, hs, rfl, _⟩
      · cases hv
      · exact ⟨arity_eq_two.2 ⟨second, hs⟩, rfl⟩
    · intro h
      obtain ⟨_, _, _, _, hrun⟩ := bindArguments_first_run h s
      exact ⟨_, _, hrun⟩
  left args s l t h := by
    rcases bindArguments_ok h with ⟨_, hv⟩ | ⟨second, a, hs, rfl, hv⟩
    · cases hv
    · cases hv
      exact ⟨second, by rw [openParams, hs]; rfl, rfl⟩
  mismatch args s := by
    refine ⟨fun h => ⟨fun hall => ?_, fun hfirst => ?_⟩, fun h => by
      rw [bindArguments_mismatch h.1 h.2]
      rfl⟩
    · cases (bindArguments_all_run hall s).symm.trans h
    · obtain ⟨_, _, _, _, hrun⟩ := bindArguments_first_run hfirst s
      cases hrun.symm.trans h

end Factory

end DualForm
