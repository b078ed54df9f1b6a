import DualForm.Proofs.Relabelling.Passes

/-!
# The machine and the numbers of identities

Principal result: `machine_respects` — on a host whose code does not depend on numbers, nothing the machine answers
does, however many nested steps it allows.
-/

namespace DualForm

open Act (Equivariant)

variable {R : Relabelling} {E : Engine} {host : Host}

/-! ## The forms of duals -/

theorem compiled_tree_equivariant (hh : host.Respects R) (hE : E.Respects R) (c : Compiled) :
    Equivariant R (Lambda.relabel R.map) (c.tree host E) ((c.relabel R.map).tree host E) := by
  unfold Compiled.tree
  rw [Compiled.relabel_expression, Compiled.relabel_decompiler, Compiled.relabel_func]
  cases c.expression with
  | some l => exact .pure rfl
  | none =>
      cases c.decompiler with
      | some decompiler => exact hh.decompile E hE decompiler c.func
      | none => exact .fail rfl

theorem captured_relabel {ρ : Nat → Nat} (formal : FormalParam) (a : Argument) :
    (a.relabel ρ).captured formal = (a.captured formal).relabel ρ := by
  cases a with
  | value v => rfl
  | deferred accessor =>
      simp [Argument.relabel, Argument.captured, Captured.relabel, CapturedSource.relabel]

theorem resolved_equivariant (hE : E.Respects R) (bs : Bindings) :
    Equivariant R (List.map (Captured.relabel R.map)) (bs.resolved E)
      (Bindings.resolved E (bs.map (Bindings.relabelBinding R.map))) :=
  Equivariant.mapM bs fun b _ => by
    obtain ⟨formal, arg⟩ := b
    cases arg with
    | value v => exact .pure rfl
    | deferred accessor =>
        have hcall := hE.call accessor.func []
        rw [← Compiled.relabel_func] at hcall
        exact hcall.bind fun v => .pure rfl

theorem buildFunction_equivariant (hh : host.Respects R) (hE : E.Respects R) (b : Builders) (args : List Captured) :
    Equivariant R (Func.relabel R.map) (b.buildFunction host E args)
      (b.buildFunction host E (args.map (Captured.relabel R.map))) := by
  cases b with
  | tree build => exact (hh.buildTree E hE build args).bind compile_equivariant
  | both func build => exact hh.buildFunction E hE func args
  | function func decompiler => exact hh.buildFunction E hE func args

theorem built_equivariant (hh : host.Respects R) (hE : E.Respects R) (b : Builders) (bs : Bindings) :
    Equivariant R (Func.relabel R.map) (bs.built host E b)
      (Bindings.built host E b (bs.map (Bindings.relabelBinding R.map))) :=
  (resolved_equivariant hE bs).bind fun args => buildFunction_equivariant hh hE b args

theorem isDeferred_relabel {ρ : Nat → Nat} (bs : Bindings) :
    Bindings.isDeferred (bs.map (Bindings.relabelBinding ρ)) = bs.isDeferred := by
  unfold Bindings.isDeferred
  rw [List.any_map]
  congr 1
  funext ⟨formal, arg⟩
  exact Argument.isDeferred_relabel arg

theorem bindings_function_equivariant (hh : host.Respects R) (hE : E.Respects R) (b : Builders) (bs : Bindings) :
    Equivariant R (Func.relabel R.map) (bs.function host E b)
      (Bindings.function host E b (bs.map (Bindings.relabelBinding R.map))) := by
  unfold Bindings.function
  rw [isDeferred_relabel]
  split
  · rw [← Bindings.relabel_eq_map]
    exact newFunc_equivariant 1 (.rebuilt b bs)
  · exact built_equivariant hh hE b bs

theorem splice_equivariant (hh : host.Respects R) (hE : E.Respects R) (body : Expr) (b : FormalParam × Argument) :
    Equivariant R (Tree.relabel R.map) (Bindings.splice host E body b)
      (Bindings.splice host E (body.relabel R.map) (Bindings.relabelBinding R.map b)) := by
  obtain ⟨formal, arg⟩ := b
  cases arg with
  | value v => exact .pure rfl
  | deferred accessor =>
      have hbody : Equivariant R (Tree.relabel R.map) (Deferred.body host E accessor)
          (Deferred.body host E (accessor.relabel R.map)) :=
        (compiled_tree_equivariant hh hE accessor).bind fun l => .pure (Lambda.relabel_body l)
      exact hbody.bind fun t => .pure (Tree.bindArgument_relabel formal t body)

theorem spliceAll_equivariant (hh : host.Respects R) (hE : E.Respects R) : ∀ (bs : Bindings) (body : Expr),
    Equivariant R (Tree.relabel R.map) (bs.foldlM (Bindings.splice host E) body)
      ((bs.map (Bindings.relabelBinding R.map)).foldlM (Bindings.splice host E) (body.relabel R.map))
  | [], _ => .pure rfl
  | b :: bs, body => by
      rw [List.map_cons, List.foldlM_cons, List.foldlM_cons]
      exact (splice_equivariant hh hE body b).bind fun t => spliceAll_equivariant hh hE bs t

theorem buildTree_equivariant (hh : host.Respects R) (hE : E.Respects R) (b : Builders) (args : List Captured) :
    Equivariant R (Lambda.relabel R.map) (b.buildTree host E args)
      (b.buildTree host E (args.map (Captured.relabel R.map))) := by
  have hcheck : ∀ l : Lam, Equivariant R (Lambda.relabel R.map)
      (do let _ ← Act.lift (l.expectSingle "expression"); return l)
      (do let _ ← Act.lift ((l.relabel R.map).expectSingle "expression"); return l.relabel R.map) := fun l =>
    (Equivariant.lift (Lambda.expectSingle_relabel l "expression")).bind fun p => .pure rfl
  unfold Builders.buildTree
  cases b with
  | tree build => exact (hh.buildTree E hE build args).bind hcheck
  | both func build => exact (hh.buildTree E hE build args).bind hcheck
  | function func decompiler =>
      exact (hh.buildFunction E hE func args).bind fun f => (hh.decompile E hE decompiler f).bind hcheck

theorem captured_relabel_all {ρ : Nat → Nat} (bs : Bindings) :
    (bs.map (Bindings.relabelBinding ρ)).map (fun (formal, arg) => arg.captured formal) =
      (bs.map fun (formal, arg) => arg.captured formal).map (Captured.relabel ρ) := by
  rw [List.map_map, List.map_map]
  refine List.map_congr_left ?_
  rintro ⟨formal, arg⟩ -
  exact captured_relabel formal arg

theorem bindings_tree_equivariant (hh : host.Respects R) (hE : E.Respects R) (b : Builders) (bs : Bindings) :
    Equivariant R (Lambda.relabel R.map) (bs.tree host E b)
      (Bindings.tree host E b (bs.map (Bindings.relabelBinding R.map))) := by
  unfold Bindings.tree
  rw [captured_relabel_all]
  refine (buildTree_equivariant hh hE b _).bind fun l => ?_
  rw [Lambda.relabel_body, Lambda.relabel_params]
  exact (spliceAll_equivariant hh hE bs l.body).bind fun t => .pure rfl

theorem initialTree_equivariant (hh : host.Respects R) (hE : E.Respects R) (d : Dual) :
    Equivariant R (Lambda.relabel R.map) (d.initialTree host E) ((d.relabel R.map).initialTree host E) := by
  unfold Dual.initialTree
  rw [Dual.relabel_origin]
  cases d.origin with
  | lambda raw => exact rewriteLambda_equivariant hE raw
  | compiled c => exact (compiled_tree_equivariant hh hE c).bind fun l => rewriteLambda_equivariant hE l
  | bound builders bs =>
      rw [Origin.relabel, Bindings.relabel_eq_map]
      exact (bindings_tree_equivariant hh hE builders bs).bind fun l => rewriteLambda_equivariant hE l
  | hosted build func rewritten =>
      refine (hh.buildTree E hE build []).bind fun l => ?_
      split
      · exact rewriteLambda_equivariant hE l
      · exact .pure rfl
  | composed outer inner =>
      exact (hE.tree outer).bind fun f => (hE.tree inner).bind fun g =>
        .lift (Lambda.composed_relabel R.injective f g)
  | precomposed outer inner =>
      exact (hE.tree outer).bind fun f => (compiled_tree_equivariant hh hE inner).bind fun g =>
        .lift (Lambda.composed_relabel R.injective f g)
  | postcomposed inner outer =>
      exact (hE.tree inner).bind fun f => (compiled_tree_equivariant hh hE outer).bind fun g =>
        .lift (Lambda.continued_relabel R.injective f g)
  | conjunction lhs rhs =>
      exact (hE.tree lhs).bind fun l => (hE.tree rhs).bind fun r =>
        .lift (Lambda.combined_relabel R.injective _ l r)
  | disjunction lhs rhs =>
      exact (hE.tree lhs).bind fun l => (hE.tree rhs).bind fun r =>
        .lift (Lambda.combined_relabel R.injective _ l r)
  | negation predicate => exact (hE.tree predicate).bind fun l => .lift (Lambda.negation_relabel l)

theorem initialFunction_equivariant (hh : host.Respects R) (hE : E.Respects R) (d : Dual) :
    Equivariant R (Func.relabel R.map) (d.initialFunction host E) ((d.relabel R.map).initialFunction host E) := by
  unfold Dual.initialFunction
  rw [Dual.relabel_origin]
  cases d.origin with
  | lambda raw => exact compile_equivariant raw
  | compiled c => exact .pure (Compiled.relabel_func c)
  | bound builders bs =>
      rw [Origin.relabel, Bindings.relabel_eq_map]
      exact bindings_function_equivariant hh hE builders bs
  | hosted build func rewritten => exact hh.buildFunction E hE func []
  | composed outer inner =>
      exact (hE.function inner).bind fun f => (hE.function outer).bind fun g => newFunc_equivariant 1 (.chain f g)
  | precomposed outer inner =>
      have hchain : ∀ g, Equivariant R _ (Act.newFunc 1 (.chain inner.func g)) _ := fun g =>
        newFunc_equivariant 1 (.chain inner.func g)
      simp only [Code.relabel, ← Compiled.relabel_func] at hchain
      exact (hE.function outer).bind hchain
  | postcomposed inner outer =>
      have hchain : ∀ f, Equivariant R _ (Act.newFunc 1 (.chain f outer.func)) _ := fun f =>
        newFunc_equivariant 1 (.chain f outer.func)
      simp only [Code.relabel, ← Compiled.relabel_func] at hchain
      exact (hE.function inner).bind hchain
  | conjunction lhs rhs =>
      exact (hE.function lhs).bind fun f => (hE.function rhs).bind fun g =>
        newFunc_equivariant 1 (.conjunction f g)
  | disjunction lhs rhs =>
      exact (hE.function lhs).bind fun f => (hE.function rhs).bind fun g =>
        newFunc_equivariant 1 (.disjunction f g)
  | negation predicate => exact (hE.function predicate).bind fun f => newFunc_equivariant 1 (.negation f)

/-! ## Calls -/

theorem holds_equivariant (hE : E.Respects R) (f : Func) (context : String) (v : Value) :
    Equivariant R id (f.holds E context v) ((f.relabel R.map).holds E context (v.relabel R.map)) :=
  (hE.call f [v]).bind fun w => expectBool_equivariant context w

theorem apply_equivariant (hh : host.Respects R) (hE : E.Respects R) (f : Func) (args : List Value) :
    Equivariant R (Value.relabel R.map) (f.apply host E args)
      ((f.relabel R.map).apply host E (args.map (Value.relabel R.map))) := by
  unfold Func.apply
  rw [Func.relabel_arity, Func.relabel_code, Func.relabel_id, List.length_map]
  split
  · exact .fail rfl
  have hrefused : Equivariant R (Value.relabel R.map)
      (Act.fail (.arityMismatch 1 args.length) : Act Value)
      (Act.fail (.arityMismatch 1 (args.map (Value.relabel R.map)).length)) := .fail (by rw [List.length_map])
  cases f.code with
  | closure l scope =>
      show Equivariant R _ (evaluate E (Scope.bindAll scope l.params args) l.body)
        (evaluate E (Scope.bindAll (Scope.relabel R.map scope) (l.relabel R.map).params _) (l.relabel R.map).body)
      rw [Lambda.relabel_params, Lambda.relabel_body, ← Scope.bindAll_relabel]
      exact evaluate_equivariant hE _ l.body
  | host routine held =>
      rw [Code.relabel, Value.relabelAll_eq_map]
      exact hh.run E hE f.id routine held args
  | chain inner outer =>
      rcases args with _ | ⟨x, _ | ⟨y, args⟩⟩
      · exact hrefused
      · exact (hE.call inner [x]).bind fun v => hE.call outer [v]
      · exact hrefused
  | conjunction lhs rhs =>
      rcases args with _ | ⟨x, _ | ⟨y, args⟩⟩
      · exact hrefused
      · refine (holds_equivariant hE lhs _ x).bind fun b => ?_
        cases b with
        | true => exact (holds_equivariant hE rhs _ x).bind fun c => .pure rfl
        | false => exact .pure rfl
      · exact hrefused
  | disjunction lhs rhs =>
      rcases args with _ | ⟨x, _ | ⟨y, args⟩⟩
      · exact hrefused
      · refine (holds_equivariant hE lhs _ x).bind fun b => ?_
        cases b with
        | true => exact .pure rfl
        | false => exact (holds_equivariant hE rhs _ x).bind fun c => .pure rfl
      · exact hrefused
  | negation predicate =>
      rcases args with _ | ⟨x, _ | ⟨y, args⟩⟩
      · exact hrefused
      · exact (holds_equivariant hE predicate _ x).bind fun b => .pure rfl
      · exact hrefused
  | rebuilt builders bs =>
      rcases args with _ | ⟨x, _ | ⟨y, args⟩⟩
      · exact hrefused
      · rw [Code.relabel, Bindings.relabel_eq_map]
        exact (built_equivariant hh hE builders bs).bind fun g => hE.call g [x]
      · exact hrefused

/-- **Nothing the machine answers depends on numbers.** -/
theorem machine_respects (hh : host.Respects R) : ∀ n, (machine host n).Respects R
  | 0 => ⟨fun _ _ => .exhausted, fun _ => .exhausted, fun _ => .exhausted, fun _ _ => .exhausted⟩
  | n + 1 => by
      have hE := machine_respects hh n
      exact ⟨apply_equivariant hh hE,
        fun d => publishOnce_equivariant (tree_relabelled d) (initialTree_equivariant hh hE d),
        fun d => publishOnce_equivariant (function_relabelled d) (initialFunction_equivariant hh hE d),
        pass_equivariant hE⟩

end DualForm
