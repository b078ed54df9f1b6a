import DualForm.Proofs.Factory.Splicing

/-!
# Calls that bind factories

* `Binding k as t` — `t` binds all open parameters of the literal factory `k` to the arguments `as`, at
  once or one after the other.
* `Realized k bs P d s` — a dual of `k` with the bindings `bs` has just been made in a store with `P`.

Principal results: `evaluate_binding_triple` — evaluating such a call makes a dual bound to the values of
the arguments; `resolve_binding_triple` — the pass that binds factories puts a literal in its place,
which holds a dual bound to what is known of the arguments.
-/

namespace DualForm

variable {host : Host} {V : Vocabulary} {ends : Prop} {err P : Store → Prop} {E : Engine} {σ : Scope}
  {k : Factory} {second : FormalParam} {t : Expr} {as : List Expr} {args : List Argument}

/-! ## Binding open parameters -/

/-- The factory left when the first of two parameters is bound. -/
def Factory.rest (k : Factory) (second : FormalParam) : Factory := { k with next := second, second := none }

/-- Calls that bind all open parameters of a literal factory. -/
inductive Binding (k : Factory) : List Expr → Expr → Prop
  | all {as : List Expr} : as.length = k.arity → Binding k as (k.bindExpr as)
  | first {a a' : Expr} {second : FormalParam} : k.second = some second →
      Binding k [a, a'] (.call (k.bindFirstExpr a) (k.rest second).bindMethod [a'])

/-- A dual of the factory with these bindings, made last. -/
def Realized (k : Factory) (bs : Bindings) (P : Store → Prop) (d : Dual) (s : Store) : Prop :=
  d.kind = k.kind ∧ d.origin = .bound k.builders bs ∧
    ∃ s₀, P s₀ ∧ s₀.nextId = d.id ∧ s = { s₀ with nextId := d.id + 1 }

theorem realize_triple (bs : Bindings) : Triple host ends err P
    (fun v s => ∃ d, v = .dual d ∧ Realized k bs P d s) fun _ => k.realize bs :=
  Triple.of_run fun s hs => ⟨_, _, rfl, ⟨s.nextId, k.kind, k.source, k.result, .bound k.builders bs⟩, rfl,
    rfl, rfl, s, hs, rfl, rfl⟩

/-- All open parameters are bound at once. -/
theorem bindArguments_all (h : args.length = k.arity) :
    k.bindArguments args = k.realize (k.bound ++ k.openParams.zip args) := by
  obtain ⟨id, kind, builders, bound, next, second, source, result⟩ := k
  cases second with
  | none => match args, h with | [a], _ => rfl
  | some second => match args, h with | [a, a'], _ => rfl

/-- The first of two open parameters is bound. -/
theorem bindArguments_first (hs : k.second = some second) (a : Argument) :
    k.bindArguments [a] = (do
      return .factory { k.rest second with
        id := ← Act.freshId, bound := k.bound ++ [(k.next, a)] }) := by
  obtain ⟨id, kind, builders, bound, next, second, source, result⟩ := k
  cases hs
  rfl

/-- The other one is bound after it. -/
theorem bindArguments_second (hk : k.bound = []) (hs : k.second = some second) (id : Nat)
    (a a' : Argument) : Factory.bindArguments
      { k.rest second with id := id, bound := k.bound ++ [(k.next, a)] } [a'] =
        k.realize (k.openParams.zip [a, a']) := by
  obtain ⟨id', kind, builders, bound, next, second, source, result⟩ := k
  cases hk
  cases hs
  rfl

/-- The factory left after the first parameter has been bound. -/
theorem first_triple (hs : k.second = some second) (hP : Stable P) (a : Argument) :
    Triple host ends err P (fun v s => (∃ id, v = .factory { k.rest second with
      id := id, bound := k.bound ++ [(k.next, a)] }) ∧ P s) fun _ => k.bindArguments [a] := by
  refine Triple.congr (fun _ => bindArguments_first hs a) (Triple.of_run fun s h => ?_)
  exact ⟨_, _, rfl, ⟨s.nextId, rfl⟩, hP.beside (beside_identity s) h⟩

/-! ## Evaluating the call -/

/-- Parameters with the arguments that values make. -/
def Bindings.ofRuntime (pairs : List (FormalParam × Value)) : Bindings :=
  pairs.map fun x => (x.1, .ofRuntime x.2 x.1.ty)

/-- What is no function is bound as a value. -/
theorem ofRuntime_value {v : Value} (h : ∀ f, v ≠ .func f) (ty : Ty) : Argument.ofRuntime v ty = .value v := by
  cases v with
  | func f => exact absurd rfl (h f)
  | _ => rfl

theorem Bindings.ofRuntime_values {pairs : List (FormalParam × Value)} (h : ∀ x ∈ pairs, ∀ f, x.2 ≠ .func f) :
    ofRuntime pairs = ofValues pairs :=
  List.map_congr_left fun x hx => by rw [ofRuntime_value (h x hx)]

/-- A binding method binds as many arguments as it takes, by their values. -/
theorem invoke_bind {m : Method Invoker} (hm : m.invoker = .bind) {ws : List Value}
    (h : ws.length = m.params.length) : m.invoke E (some (.factory k)) ws =
      k.bindArguments (ws.zipWith Argument.ofRuntime m.params) := by
  have hzip : (ws.zip m.params).map (fun x => Argument.ofRuntime x.1 x.2) =
      ws.zipWith Argument.ofRuntime m.params := by
    rw [List.zip, List.map_zipWith]
  unfold Method.invoke
  rw [if_neg (by rw [h]; exact fun h => h rfl), hm, ← hzip]
  rfl

theorem openParams_ofRuntime : ∀ (formals : List FormalParam) (ws : List Value),
    formals.zip (ws.zipWith Argument.ofRuntime (formals.map FormalParam.ty)) =
      Bindings.ofRuntime (formals.zip ws)
  | [], _ => rfl
  | _ :: _, [] => rfl
  | formal :: formals, w :: ws => by
      have hrest := openParams_ofRuntime formals ws
      simp only [List.map_cons, List.zipWith_cons_cons, List.zip_cons_cons, hrest, Bindings.ofRuntime]

theorem evaluate_bindExpr (as : List Expr) : evaluate E σ (k.bindExpr as) = (do
    k.bindMethod.invoke E (some (.factory k)) (← as.mapM (evaluate E σ))) := by
  rw [← evaluateAll_eq_mapM]
  rfl

theorem evaluate_bindFirst (a a' : Expr) (m : Method Invoker) :
    evaluate E σ (.call (k.bindFirstExpr a) m [a']) = (do
      let w ← evaluate E σ a
      let v ← k.bindFirstMethod.invoke E (some (.factory k)) [w]
      let w' ← evaluate E σ a'
      m.invoke E (some v) [w']) := by
  simp [evaluate, evaluateAll, Factory.bindFirstExpr, Factory.literal]

section Evaluation

variable {S : Expr → Value → Prop}

/-- **Evaluating the call makes a dual bound to the values of the arguments.** -/
theorem evaluate_binding_triple (hk : k.bound = []) (h : Binding k as t) (hP : Stable P)
    (hS : ∀ a ∈ as, Triple host ends err P (fun w s => S a w ∧ P s) fun E => evaluate E σ a) :
    Triple host ends err P (fun v s => ∃ ws d, v = .dual d ∧ List.Forall₂ S as ws ∧
      Realized k (Bindings.ofRuntime (k.openParams.zip ws)) P d s) fun E => evaluate E σ t := by
  cases h with
  | all hlength =>
      refine Triple.congr (fun E => evaluate_bindExpr as) ?_
      refine (Triple.mapM_mem as hS).bind fun ws => Triple.assuming (fun s hs => hs.1) fun hws => ?_
      have hcount : ws.length = k.openParams.length := hws.length_eq.symm.trans hlength
      refine Triple.congr (fun E => (invoke_bind rfl ?_).trans (bindArguments_all ?_)) ?_
      · rw [hcount]
        exact (List.length_map _).symm
      · rw [List.length_zipWith, hcount]
        simp [Factory.bindMethod, Factory.arity]
      · rw [hk, List.nil_append, Factory.bindMethod, openParams_ofRuntime]
        refine (realize_triple _).imp (fun s hs => hs.2) ?_
        rintro v s ⟨d, rfl, hd⟩
        exact ⟨ws, d, rfl, hws, hd⟩
  | @first a a' second hs =>
      refine Triple.congr (fun E => evaluate_bindFirst a a' _) ?_
      refine (hS a (by simp)).bind fun w => Triple.assuming (fun s hs => hs.1) fun hw => ?_
      refine Triple.bind (Q := fun v s => (∃ id, v = .factory { k.rest second with
        id := id, bound := k.bound ++ [(k.next, .ofRuntime w k.next.ty)] }) ∧ P s) ?_ fun v => ?_
      · exact (Triple.congr (fun E => invoke_bind rfl rfl) (first_triple hs hP _)).imp (fun s hs => hs.2)
          fun _ _ h => h
      refine Triple.assuming (fun s hs => hs.1) ?_
      rintro ⟨id, rfl⟩
      refine ((hS a' (by simp)).imp (fun s hs => hs.2) fun _ _ h => h).bind fun w' =>
        Triple.assuming (fun s hs => hs.1) fun hw' => ?_
      have hparams : k.openParams = [k.next, second] := by
        simp [Factory.openParams, hs]
      refine Triple.congr (fun E => (invoke_bind rfl rfl).trans
        ((bindArguments_second hk hs id _ (.ofRuntime w' second.ty)))) ?_
      refine (realize_triple _).imp (fun s hs => hs.2) ?_
      rintro v s ⟨d, rfl, hd⟩
      refine ⟨[w, w'], d, rfl, .cons hw (.cons hw' .nil), ?_⟩
      rw [hparams] at hd ⊢
      exact hd

end Evaluation

/-! ## Resolving the call -/

theorem ofFactory_wrapper (kind : DualKind) (params : List Ty) (source result : Ty) :
    (Ty.ofFactory kind params source result).wrapper? = some (.factory kind) := by
  cases kind <;> rfl

theorem isBinding_bindMethod (k : Factory) : isBinding k.bindMethod = true := by
  unfold isBinding Factory.bindMethod DeclaringType.ofTy DeclaringType.wrapper? Factory.signature
  rw [ofFactory_wrapper]
  rfl

theorem isBinding_bindFirstMethod (k : Factory) : isBinding k.bindFirstMethod = true := by
  unfold isBinding Factory.bindFirstMethod DeclaringType.ofTy DeclaringType.wrapper? Factory.signature
  rw [ofFactory_wrapper]
  rfl

/-- An argument as the pass that binds factories sees it: rewritten first. -/
def resolvedArgument (E : Engine) (a : Expr) : Act Argument := do
  bindingArgument E (← DualPass.factories.run E a)

/-- A binding call on a receiver that has been rewritten. -/
def bindingRule (E : Engine) (args : List (Expr × Act Expr)) (receiver : Expr) : Act Expr := do
  let v ← evaluateNotNull E receiver
  match Value.factory? v with
  | none => Act.fail (receiver.unexpected "a factory")
  | some k =>
      let args ← args.mapM fun a => do bindingArgument E (← a.2)
      let bound ← k.bindArguments args
      return .literal bound (Value.ty bound)

theorem run_binding {m : Method Invoker} (hm : isBinding m = true) (receiver : Expr) (as : List Expr) :
    DualPass.factories.run E (.call receiver m as) = (do
      let r ← DualPass.factories.run E receiver
      bindingRule E (as.map fun a => (a, DualPass.factories.run E a)) r) := by
  rw [DualPass.run_eq]
  show factoryRule E (.call (receiver, _) m _) = _
  unfold factoryRule
  dsimp only
  rw [if_neg fun h => h hm]
  rfl

theorem bindingRule_literal (k : Factory) (ty : Ty) (as : List Expr) :
    bindingRule E (as.map fun a => (a, DualPass.factories.run E a)) (.literal (.factory k) ty) = (do
      let bound ← k.bindArguments (← as.mapM (resolvedArgument E))
      return .literal bound (Value.ty bound)) := by
  unfold bindingRule evaluateNotNull evaluateNow tryEvaluate
  simp only [pure_bind, Datum.isNull, Bool.false_eq_true, if_false, Value.factory?, List.mapM_map,
    Function.comp_def]
  rfl

theorem run_bindExpr (as : List Expr) : DualPass.factories.run E (k.bindExpr as) = (do
    let bound ← k.bindArguments (← as.mapM (resolvedArgument E))
    return .literal bound (Value.ty bound)) := by
  refine (run_binding (isBinding_bindMethod k) k.literal as).trans ?_
  exact bindingRule_literal k k.signature as

theorem run_bindFirst (a a' : Expr) {m : Method Invoker} (hm : isBinding m = true) :
    DualPass.factories.run E (.call (k.bindFirstExpr a) m [a']) = (do
      let arg ← resolvedArgument E a
      let v ← k.bindArguments [arg]
      bindingRule E ([a'].map fun a => (a, DualPass.factories.run E a)) (.literal v (Value.ty v))) := by
  have hreceiver : DualPass.factories.run E (k.bindFirstExpr a) = (do
      let bound ← k.bindArguments (← [a].mapM (resolvedArgument E))
      return .literal bound (Value.ty bound)) :=
    (run_binding (isBinding_bindFirstMethod k) k.literal [a]).trans (bindingRule_literal k k.signature [a])
  rw [run_binding hm, hreceiver]
  simp

section Resolution

variable {S : Expr → Argument → Prop}

/-- **What is known of an argument over one parameter is bound:** its value, if it folds, and otherwise an
accessor over the tree. -/
theorem resolvedArgument_triple (hV : V.Closed) (hhost : V.Respected host) (hcall : V.Callable)
    {formals : List FormalParam} {p : Param} {a : Expr} (ha : a.Over V formals p) (hP : Stable P)
    (herr : ∀ s, P s → err s)
    (hends : ends → a.folds = true → ∃ w, Recurs host (fun E => evaluate E [(p, .null)] a) w) :
    Triple host ends err P (fun x s => Binds host V a x ∧ P s) fun E => resolvedArgument E a := by
  have hrun : ∀ E, resolvedArgument E a = bindingArgument E a := fun E => by
    unfold resolvedArgument
    rw [ha.settled.run, pure_bind]
  refine Triple.congr hrun ?_
  unfold bindingArgument
  cases hfolds : a.folds with
  | true =>
      refine Triple.congr (fun E => by rw [tryEvaluate_eq_evaluate hfolds [(p, .null)], bind_assoc]) ?_
      refine (recurring_triple (fun I hI n => ha.follows hV hhost hcall hI (fun _ => hV.scalar _ rfl) n) hP
        herr fun h => hends h hfolds).bind fun w => Triple.assuming (fun s hs => hs.1) fun hw => ?_
      refine Triple.congr (fun E => pure_bind ..) (Triple.pure fun s hs => ⟨?_, hs.2⟩)
      exact .value hfolds hw.1 fun σ => hw.2.congr fun E => evaluate_of_folds hfolds
  | false =>
      have hlambda := ha.lambdaless.here
      refine Triple.congr (y := fun _ => do return .deferred ⟨← compile ⟨[], a⟩, some ⟨[], a⟩, none⟩)
        (fun E => ?_) ?_
      · rw [tryEvaluate_of_not_folds hfolds, pure_bind]
        cases a <;> first | exact absurd rfl (hlambda _ _) | simp [Deferred.ofSubtree, Compiled.ofLambda]
      · refine (compile_triple hP _).bind fun f => Triple.pure fun s hs => ⟨?_, hs.2⟩
        exact .deferred f hfolds

/-- **The pass that binds factories puts a literal in the place of the call,** which holds a dual bound to
what is known of the arguments. -/
theorem resolve_binding_triple (hk : k.bound = []) (h : Binding k as t) (hP : Stable P)
    (hS : ∀ a ∈ as, Triple host ends err P (fun x s => S a x ∧ P s) fun E => resolvedArgument E a) :
    Triple host ends err P (fun u s => ∃ args d, u = d.literal ∧ List.Forall₂ S as args ∧
      Realized k (k.openParams.zip args) P d s) fun E => DualPass.factories.run E t := by
  have hliteral : ∀ {args}, List.Forall₂ S as args → Triple host ends err P
      (fun u s => ∃ args d, u = d.literal ∧ List.Forall₂ S as args ∧
        Realized k (k.openParams.zip args) P d s)
      fun _ => (do
        let bound ← k.realize (k.openParams.zip args)
        return .literal bound (Value.ty bound)) := by
    intro args hargs
    refine (realize_triple _).bind fun v => Triple.pure ?_
    rintro s ⟨d, rfl, hd⟩
    exact ⟨args, d, rfl, hargs, hd⟩
  cases h with
  | all hlength =>
      refine Triple.congr (fun E => run_bindExpr as) ?_
      refine (Triple.mapM_mem as hS).bind fun args => Triple.assuming (fun s hs => hs.1) fun hargs => ?_
      refine Triple.congr (fun _ => by
        rw [bindArguments_all (hargs.length_eq.symm.trans hlength), hk, List.nil_append]) ?_
      exact (hliteral hargs).imp (fun s hs => hs.2) fun _ _ h => h
  | @first a a' second hs =>
      refine Triple.congr (fun E => run_bindFirst a a' (isBinding_bindMethod _)) ?_
      refine (hS a (by simp)).bind fun arg => Triple.assuming (fun s hs => hs.1) fun harg => ?_
      refine ((first_triple hs hP arg).imp (fun s hs => hs.2) fun _ _ h => h).bind fun v =>
        Triple.assuming (fun s hs => hs.1) ?_
      rintro ⟨id, rfl⟩
      refine Triple.congr (fun E => bindingRule_literal _ _ [a']) ?_
      refine Triple.congr (fun E => by rw [List.mapM_cons, List.mapM_nil]) ?_
      refine Triple.congr (fun E => bind_assoc ..) ?_
      refine ((hS a' (by simp)).imp (fun s hs => hs.2) fun _ _ h => h).bind fun arg' =>
        Triple.assuming (fun s hs => hs.1) fun harg' => ?_
      refine Triple.congr (fun E => by rw [pure_bind, pure_bind, bindArguments_second hk hs]) ?_
      exact (hliteral (.cons harg (.cons harg' .nil))).imp (fun s hs => hs.2) fun _ _ h => h

end Resolution

end DualForm
