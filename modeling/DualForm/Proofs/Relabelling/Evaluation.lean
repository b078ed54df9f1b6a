import DualForm.Proofs.Relabelling.Actions

/-!
# Evaluation and the numbers of identities

Principal results: on an engine whose answers do not depend on numbers, neither do making duals, binding factories
(`bindArguments_equivariant`), the values of trees (`evaluate_equivariant`) and the values known before evaluation
(`tryEvaluate_equivariant`, `foldDual_equivariant`).
-/

namespace DualForm

open Act (Equivariant)

variable {R : Relabelling} {E : Engine}

/-! ## Making duals and binding factories -/

theorem create_equivariant (kind : DualKind) (source result : Ty) (origin : Origin) :
    Equivariant R (Dual.relabel R.map) (Dual.create kind source result origin)
      (Dual.create kind source result (origin.relabel R.map)) :=
  freshId_equivariant.bind fun _ => .pure rfl

theorem checkSameSource_relabel {ρ : Nat → Nat} (d e : Dual) :
    Dual.checkSameSource (d.relabel ρ) (e.relabel ρ) = (Dual.checkSameSource d e).map id := by
  unfold Dual.checkSameSource
  simp only [Dual.relabel_source, Dual.relabel_signature]
  split <;> rfl

theorem conjunction_equivariant (d e : Dual) : Equivariant R (Dual.relabel R.map) (Dual.conjunction d e)
    (Dual.conjunction (d.relabel R.map) (e.relabel R.map)) := by
  refine (Equivariant.lift (checkSameSource_relabel d e)).bind fun _ => ?_
  rw [Dual.relabel_source]
  exact create_equivariant ..

theorem disjunction_equivariant (d e : Dual) : Equivariant R (Dual.relabel R.map) (Dual.disjunction d e)
    (Dual.disjunction (d.relabel R.map) (e.relabel R.map)) := by
  refine (Equivariant.lift (checkSameSource_relabel d e)).bind fun _ => ?_
  rw [Dual.relabel_source]
  exact create_equivariant ..

theorem negation_equivariant (d : Dual) :
    Equivariant R (Dual.relabel R.map) (Dual.negation d) (Dual.negation (d.relabel R.map)) := by
  unfold Dual.negation
  rw [Dual.relabel_source]
  exact create_equivariant ..

theorem realize_equivariant (k : Factory) (bs : Bindings) : Equivariant R (Value.relabel R.map) (k.realize bs)
    ((k.relabel R.map).realize (bs.map (Bindings.relabelBinding R.map))) := by
  obtain ⟨id, kind, builders, bound, next, second, source, result⟩ := k
  rw [← Bindings.relabel_eq_map]
  exact (create_equivariant kind source result (.bound builders bs)).bind fun d => .pure rfl

theorem bindArguments_equivariant (k : Factory) (args : List Argument) :
    Equivariant R (Value.relabel R.map) (k.bindArguments args)
      ((k.relabel R.map).bindArguments (args.map (Argument.relabel R.map))) := by
  have hrefused : Equivariant R (Value.relabel R.map) (Act.fail (.arityMismatch k.arity args.length) : Act Value)
      (Act.fail (.arityMismatch (k.relabel R.map).arity (args.map (Argument.relabel R.map)).length)) :=
    .fail (by rw [Factory.relabel_arity, List.length_map])
  have hrealize : ∀ bs : Bindings, Equivariant R (Value.relabel R.map) (k.realize (k.bound ++ bs))
      ((k.relabel R.map).realize ((k.relabel R.map).bound ++ bs.map (Bindings.relabelBinding R.map))) :=
    fun bs => by
      rw [Factory.relabel_bound, ← List.map_append]
      exact realize_equivariant k _
  unfold Factory.bindArguments
  rw [Factory.relabel_second, Factory.relabel_next]
  rcases args with _ | ⟨a, _ | ⟨b, _ | ⟨c, args⟩⟩⟩
  · cases k.second <;> exact hrefused
  · cases k.second with
    | none => exact hrealize [(k.next, a)]
    | some second =>
        refine freshId_equivariant.bind fun id => .pure ?_
        obtain ⟨_, kind, builders, bound, next, _, source, result⟩ := k
        simp [Value.relabel, Factory.relabel, Bindings.relabelBinding]
  · cases k.second with
    | none => exact hrefused
    | some second => exact hrealize [(k.next, a), (second, b)]
  · cases k.second <;> exact hrefused

/-! ## Evaluation -/

theorem evaluate_dual_equivariant (hE : E.Respects R) (d : Dual) (v : Value) :
    Equivariant R (Value.relabel R.map) (d.evaluate E v) ((d.relabel R.map).evaluate E (v.relabel R.map)) :=
  (hE.function d).bind fun f => hE.call f [v]

theorem expect_equivariant (kind : DualKind) (v : Value) : Equivariant R (Dual.relabel R.map)
    (Act.lift (Dual.expect kind v)) (Act.lift (Dual.expect kind (v.relabel R.map))) :=
  .lift (Dual.expect_relabel kind v)

theorem read_equivariant (hE : E.Respects R) (m : Member Getter) (target : Option Value) :
    Equivariant R (Value.relabel R.map) (m.read E target)
      ((m.relabel R.map).read E (target.map (Value.relabel R.map))) := by
  obtain ⟨⟨declaring, name, ty, kind, isStatic⟩, getter⟩ := m
  have hrefused : ∀ v : Value, Equivariant R (Value.relabel R.map)
      (Act.fail (.memberAccess name v.text) : Act Value)
      (Act.fail (.memberAccess name (v.relabel R.map).text)) := fun v => .fail (by rw [Value.text_relabel])
  unfold Member.read
  cases isStatic with
  | true =>
      cases target with
      | some v => exact hrefused v
      | none =>
          cases getter with
          | computed f => exact hE.call f []
          | fixed v => exact .pure rfl
          | field | property | evaluator => exact .fail rfl
  | false =>
      cases target with
      | none => exact .fail rfl
      | some v =>
          cases getter with
          | computed f => exact hE.call f []
          | fixed w => exact .pure rfl
          | property f => exact hE.call f [v]
          | evaluator kind =>
              exact (expect_equivariant kind v).bind fun d => (hE.function d).bind fun f => .pure rfl
          | field =>
              cases v with
              | record id other fields =>
                  have hfield := @Datum.fieldOf?_relabel R.map fields name
                  dsimp only [Member.relabel, Getter.relabel, Value.relabel, Option.map]
                  rw [hfield]
                  cases Datum.fieldOf? fields name with
                  | some v => exact .pure rfl
                  | none => exact .fail rfl
              | null | bool | int | float | str | list | func | dual | factory => exact hrefused _

theorem onTarget_equivariant {run run' : Value → Act Value}
    (h : ∀ v, Equivariant R (Value.relabel R.map) (run v) (run' (v.relabel R.map))) (m : Method Invoker)
    (target : Option Value) : Equivariant R (Value.relabel R.map) (m.onTarget target run)
      ((m.relabel R.map).onTarget (target.map (Value.relabel R.map)) run') := by
  unfold Method.onTarget
  cases target with
  | some v => exact h v
  | none => exact .fail (by rw [Method.relabel_signature])

theorem ofRuntime_relabel_zip {ρ : Nat → Nat} (args : List Value) (tys : List Ty) :
    ((args.map (Value.relabel ρ)).zip tys).map (fun (arg, ty) => Argument.ofRuntime arg ty) =
      ((args.zip tys).map fun (arg, ty) => Argument.ofRuntime arg ty).map (Argument.relabel ρ) := by
  rw [List.zip_map_left, List.map_map, List.map_map]
  refine List.map_congr_left ?_
  rintro ⟨v, ty⟩ -
  exact Argument.ofRuntime_relabel v ty

theorem takes_relabel {m : Method Invoker} {count : Nat} :
    (m.relabel R.map).Takes count ↔ m.Takes count := by
  have harity : (m.invoker.relabel R.map).arity? = m.invoker.arity? := by cases m.invoker <;> rfl
  rw [Method.Takes, Method.Takes, Method.relabel_signature, Method.relabel_invoker, harity]

theorem invoke_equivariant (hE : E.Respects R) (m : Method Invoker) (target : Option Value)
    (args : List Value) : Equivariant R (Value.relabel R.map) (m.invoke E target args)
      ((m.relabel R.map).invoke E (target.map (Value.relabel R.map)) (args.map (Value.relabel R.map))) := by
  by_cases htakes : m.Takes args.length
  · have hon := fun run run' h => @onTarget_equivariant R run run' h m target
    unfold Method.invoke
    rw [Method.relabel_signature, Method.relabel_invoker, List.length_map, if_neg (not_not.2 htakes.1),
      if_neg (not_not.2 htakes.1)]
    have hcount := htakes.2
    cases hinvoker : m.invoker with
    | function f => exact hE.call f args
    | method f => exact hon _ _ fun v => hE.call f (v :: args)
    | evaluate kind =>
        obtain ⟨x, rfl⟩ := List.length_eq_one_iff.1 (hcount 1 (by rw [hinvoker]; rfl))
        exact hon _ _ fun v => (expect_equivariant kind v).bind fun d => evaluate_dual_equivariant hE d x
    | toFunction kind =>
        obtain ⟨x, rfl⟩ := List.length_eq_one_iff.1 (hcount 1 (by rw [hinvoker]; rfl))
        exact (expect_equivariant kind x).bind fun d => (hE.function d).bind fun f => .pure rfl
    | negation =>
        obtain ⟨x, rfl⟩ := List.length_eq_one_iff.1 (hcount 1 (by rw [hinvoker]; rfl))
        exact (expect_equivariant _ x).bind fun d => (negation_equivariant d).bind fun c => .pure rfl
    | conjunction =>
        obtain ⟨x, y, rfl⟩ := List.length_eq_two.1 (hcount 2 (by rw [hinvoker]; rfl))
        exact (expect_equivariant _ x).bind fun d => (expect_equivariant _ y).bind fun e =>
          (conjunction_equivariant d e).bind fun c => .pure rfl
    | disjunction =>
        obtain ⟨x, y, rfl⟩ := List.length_eq_two.1 (hcount 2 (by rw [hinvoker]; rfl))
        exact (expect_equivariant _ x).bind fun d => (expect_equivariant _ y).bind fun e =>
          (disjunction_equivariant d e).bind fun c => .pure rfl
    | bind =>
        refine hon _ _ fun v => ?_
        rw [Value.factory?_relabel, Value.ty_relabel, ofRuntime_relabel_zip]
        cases Value.factory? v with
        | some k => exact bindArguments_equivariant k _
        | none => exact .fail rfl
  · have htakes' : ¬ (m.relabel R.map).Takes (args.map (Value.relabel R.map)).length := by
      rwa [takes_relabel, List.length_map]
    rw [invoke_refused htakes, invoke_refused htakes', Method.relabel_signature, List.length_map]
    exact .fail rfl

theorem evaluateAll_equivariant {scope : Scope} : ∀ ts : List Expr,
    (∀ t ∈ ts, Equivariant R (Value.relabel R.map) (evaluate E scope t)
      (evaluate E (Scope.relabel R.map scope) (t.relabel R.map))) →
    Equivariant R (List.map (Value.relabel R.map)) (evaluateAll E scope ts)
      (evaluateAll E (Scope.relabel R.map scope) (ts.map (Tree.relabel R.map)))
  | [], _ => by rw [List.map_nil, evaluateAll, evaluateAll]; exact .pure rfl
  | t :: ts, h => by
      rw [List.map_cons, evaluateAll, evaluateAll]
      refine (h t (List.mem_cons_self ..)).bind fun v => ?_
      exact (evaluateAll_equivariant ts fun u hu => h u (List.mem_cons_of_mem _ hu)).bind fun vs => .pure rfl

theorem expectBool_equivariant (context : String) (v : Value) : Equivariant R id
    (Act.lift (Value.expectBool context v)) (Act.lift (Value.expectBool context (v.relabel R.map))) :=
  .lift (by rw [Value.expectBool_relabel]; cases Value.expectBool context v <;> rfl)

theorem evaluate_equivariant (hE : E.Respects R) (scope : Scope) (t : Expr) :
    Equivariant R (Value.relabel R.map) (evaluate E scope t)
      (evaluate E (Scope.relabel R.map scope) (t.relabel R.map)) := by
  induction t using Tree.nodewise with
  | literal v ty => exact .pure rfl
  | param p =>
      have hlookup := Scope.lookup?_relabel R.injective scope p
      cases hp : scope.lookup? p with
      | some v =>
          rw [hp] at hlookup
          rw [evaluate_bound hp, Tree.relabel, evaluate_bound hlookup]
          exact .pure rfl
      | none =>
          rw [hp] at hlookup
          rw [evaluate_unbound hp, Tree.relabel, evaluate_unbound hlookup]
          exact .fail rfl
  | staticMember m => exact read_equivariant hE m none
  | member target m ih => exact ih.bind fun v => read_equivariant hE m (some v)
  | staticCall m args ih =>
      rw [Tree.relabel, Tree.relabelAll_eq_map]
      exact (evaluateAll_equivariant args ih).bind fun vs => invoke_equivariant hE m none vs
  | call target m args iht ih =>
      rw [Tree.relabel, Tree.relabelAll_eq_map]
      exact iht.bind fun v => (evaluateAll_equivariant args ih).bind fun vs => invoke_equivariant hE m (some v) vs
  | binary op lhs rhs via ihl ihr =>
      cases via with
      | some m =>
          rw [Tree.relabel, Method.relabel?, evaluate_via, evaluate_via]
          exact ihl.bind fun l => ihr.bind fun r => invoke_equivariant hE m none [l, r]
      | none =>
          rw [Tree.relabel, Method.relabel?]
          by_cases hand : op = .andAlso
          · rw [hand, evaluate_andAlso, evaluate_andAlso]
            refine ihl.bind fun l => (expectBool_equivariant "&&" l).bind fun b => ?_
            cases b with
            | true => exact ihr.bind fun r => (expectBool_equivariant "&&" r).bind fun c => .pure rfl
            | false => exact .pure rfl
          by_cases hor : op = .orElse
          · rw [hor, evaluate_orElse, evaluate_orElse]
            refine ihl.bind fun l => (expectBool_equivariant "||" l).bind fun b => ?_
            cases b with
            | true => exact .pure rfl
            | false => exact ihr.bind fun r => (expectBool_equivariant "||" r).bind fun c => .pure rfl
          · rw [evaluate_strict hand hor, evaluate_strict hand hor]
            exact ihl.bind fun l => ihr.bind fun r => .lift (Value.applyBinary_relabel R.injective op l r)
  | unary op operand via ty ih =>
      rw [Tree.relabel]
      refine ih.bind fun v => ?_
      cases via with
      | some m => exact invoke_equivariant hE m none [v]
      | none => exact .lift (Value.applyUnary_relabel op v ty)
  | lambda params body ih =>
      have hnew := @newFunc_equivariant R params.length (.closure ⟨params, body⟩ scope)
      rw [Tree.relabel]
      unfold evaluate
      rw [List.length_map]
      exact hnew.bind fun f => .pure rfl
  | invoke callee args ihc ih =>
      rw [Tree.relabel, Tree.relabelAll_eq_map, evaluate_invoke, evaluate_invoke]
      refine ihc.bind fun v => (evaluateAll_equivariant args ih).bind fun vs => ?_
      have hrefused : Equivariant R (Value.relabel R.map)
          (Act.fail (.typeMismatch "function" (Value.ty v).text) : Act Value)
          (Act.fail (.typeMismatch "function" (Value.ty (v.relabel R.map)).text)) :=
        .fail (by rw [Value.ty_relabel])
      cases v with
      | func f => exact hE.call f vs
      | _ => exact hrefused
  | conditional test ifTrue ifFalse iht ihp ihn =>
      rw [Tree.relabel]
      refine iht.bind fun v => (expectBool_equivariant "?:" v).bind fun b => ?_
      cases b with
      | true => exact ihp
      | false => exact ihn

/-! ## Values known before evaluation -/

theorem tryEvaluate_equivariant (hE : E.Respects R) (t : Expr) :
    Equivariant R (Option.map (Value.relabel R.map)) (tryEvaluate E t) (tryEvaluate E (t.relabel R.map)) := by
  induction t using Tree.nodewise with
  | literal v ty => exact .pure rfl
  | staticMember m =>
      rw [Tree.relabel, tryEvaluate, tryEvaluate]
      exact (read_equivariant hE m none).bind fun v => .pure rfl
  | member target m ih =>
      rw [Tree.relabel, tryEvaluate, tryEvaluate]
      refine ih.bind fun v => ?_
      cases v with
      | some v => exact (read_equivariant hE m (some v)).bind fun w => .pure rfl
      | none => exact .pure rfl
  | param | staticCall | call | binary | unary | lambda | invoke | conditional => exact .pure rfl

theorem evaluateNow_equivariant (hE : E.Respects R) (t : Expr) :
    Equivariant R (Value.relabel R.map) (evaluateNow E t) (evaluateNow E (t.relabel R.map)) := by
  refine (tryEvaluate_equivariant hE t).bind fun v => ?_
  cases v with
  | some v => exact .pure rfl
  | none => exact .fail (by rw [Tree.text_relabel])

theorem evaluateNotNull_equivariant (hE : E.Respects R) (t : Expr) :
    Equivariant R (Value.relabel R.map) (evaluateNotNull E t) (evaluateNotNull E (t.relabel R.map)) := by
  refine (evaluateNow_equivariant hE t).bind fun v => ?_
  rw [Value.isNull_relabel]
  split
  · exact .fail (by rw [Tree.text_relabel])
  · exact .pure rfl

theorem foldDual_equivariant (hE : E.Respects R) (kind : DualKind) (t : Expr) :
    Equivariant R (Option.map (Lambda.relabel R.map)) (foldDual E kind t)
      (foldDual E kind (t.relabel R.map)) := by
  unfold foldDual
  refine (tryEvaluate_equivariant hE t).bind fun v => ?_
  cases v with
  | none => exact .pure rfl
  | some v =>
      show Equivariant R _ (if v.isNull then _ else _) (if (v.relabel R.map).isNull then _ else _)
      rw [Value.isNull_relabel]
      split
      · exact .fail (by rw [Tree.text_relabel])
      · exact (expect_equivariant kind v).bind fun d => (hE.tree d).bind fun l => .pure rfl

end DualForm
