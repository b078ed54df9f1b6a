import DualForm.Proofs.Laziness.Machines
import DualForm.Proofs.Relabelling.Machines

/-!
# Registered host code and the numbers of identities

* `ExprRecipe.Fixed ρ` and its companions — the finished things that stand in a recipe keep their numbers.
* `Registry.Fixed ρ r` — so do those in everything registered.

Principal result: `registry_respects` — what registered host code does depends on no numbers but those of the
finished things in it.
-/

namespace DualForm

open Act (Equivariant)

variable {R : Relabelling} {E : Engine} {α β γ : Type}

/-! ## State of host code -/

theorem logLine_equivariant (line : String) : Equivariant R id (Act.logLine line) (Act.logLine line) :=
  ⟨fun _ => ⟨fun _ hs => hs⟩, fun _ _ hst _ => .ok { hst with log := congrArg (·.push line) hst.log }⟩

theorem attempts_insert (s : Store) (id other made : Nat) :
    (s.attempts.insert id made)[other]? = if id = other then some made else s.attempts[other]? := by
  rw [Std.HashMap.getElem?_insert]
  simp

theorem failFirst_equivariant (id fails : Nat) :
    Equivariant R (fun u => u) (failFirst id fails) (failFirst (R.map id) fails) := by
  have hrun : ∀ id s, failFirst id fails s = if (s.attempts[id]?).getD 0 < fails then
      .error (.failed (.host "flaky")) { s with attempts := s.attempts.insert id ((s.attempts[id]?).getD 0 + 1) }
      else .ok () s := fun id s => by
    show (if (s.attempts[id]?).getD 0 < fails then _ else _ : Act Unit) s = _
    split <;> rfl
  refine ⟨fun m => (failFirst_concur ⟨fun _ _ h => h, fun _ _ h => h, fun _ _ h => h⟩ id fails).keeps,
    fun s t hst _ => ?_⟩
  rw [hrun, hrun, hst.attempts]
  split
  · refine .error { hst with attempts := fun other => ?_ }
    rw [attempts_insert, attempts_insert, hst.attempts]
    simp only [R.injective.eq_iff]
  · exact .ok hst

theorem readCell_set {name : String} {s : Store} {v : Value} (h : s.cells[name]? = some v) :
    readCell name s = .ok v s := by
  unfold readCell
  rw [Act.bind_ok (Act.get_run s), h]
  rfl

theorem readCell_unset {name : String} {s : Store} (h : s.cells[name]? = none) :
    readCell name s = .error (.failed (.host ("cell `" ++ name ++ "` is unset"))) s := by
  unfold readCell
  rw [Act.bind_ok (Act.get_run s), h]
  rfl

theorem readCell_equivariant (name : String) :
    Equivariant R (Value.relabel R.map) (readCell name) (readCell name) := by
  refine ⟨fun m => (readCell_concur name).keeps, fun s t hst _ => ?_⟩
  have hcell := hst.cells name
  cases hs : s.cells[name]? with
  | some v =>
      rw [hs] at hcell
      rw [readCell_set hs, readCell_set hcell]
      exact .ok hst
  | none =>
      rw [hs] at hcell
      rw [readCell_unset hs, readCell_unset hcell]
      exact .error hst

/-! ## Routines -/

theorem Routine.Takes.of_relabel {ρ : Nat → Nat} {name : String} {held args : List Value}
    (h : Routine.Takes name (held.map (Value.relabel ρ)) (args.map (Value.relabel ρ))) :
    Routine.Takes name held args := by
  generalize hheld : held.map (Value.relabel ρ) = held' at h
  generalize hargs : args.map (Value.relabel ρ) = args' at h
  cases h with
  | id | len | inc =>
      rcases args with _ | ⟨x, _ | ⟨y, args⟩⟩ <;> cases hargs
      constructor
  | pack => constructor
  | const =>
      rcases held with _ | ⟨v, _ | ⟨w, held⟩⟩ <;> cases hheld
      constructor
  | arg | fail | cell =>
      rcases held with _ | ⟨v, _ | ⟨w, held⟩⟩
      · simp at hheld
      · cases v <;> cases hheld
        constructor
      · simp at hheld
  | apply =>
      rcases args with _ | ⟨v, _ | ⟨x, _ | ⟨y, args⟩⟩⟩ <;> cases hargs
      constructor
  | flaky | trace =>
      rcases held with _ | ⟨v, _ | ⟨w, _ | ⟨z, held⟩⟩⟩
      · simp at hheld
      · simp at hheld
      · cases v <;> cases w <;> cases hheld
        constructor
      · simp at hheld

theorem increment_relabel {ρ : Nat → Nat} (v : Value) :
    Routine.increment (v.relabel ρ) = (Routine.increment v).map (Value.relabel ρ) := by
  have hrefused : (.error (.typeMismatch "int" (Value.ty (v.relabel ρ)).text) : Except Error Value) =
      (.error (.typeMismatch "int" (Value.ty v).text) : Except Error Value).map (Value.relabel ρ) := by
    rw [Value.ty_relabel]
    rfl
  cases v with
  | int n => rfl
  | _ => exact hrefused

theorem getD_relabel {ρ : Nat → Nat} (vs : List Value) (i : Nat) :
    (vs.map (Value.relabel ρ)).getD i .null = (vs.getD i .null).relabel ρ := by
  rw [List.getD_eq_getElem?_getD, List.getD_eq_getElem?_getD, List.getElem?_map]
  cases vs[i]? <;> rfl

/-- A function is called, anything else refused. -/
theorem application_equivariant (hE : E.Respects R) (self : Nat) (held : List Value) (v x : Value) :
    Equivariant R (Value.relabel R.map) (Routine.run E self "apply" held [v, x])
      (Routine.run E (R.map self) "apply" (held.map (Value.relabel R.map)) [v.relabel R.map, x.relabel R.map]) := by
  have hrefused : Equivariant R (Value.relabel R.map)
      (Act.fail (.typeMismatch "function" (Value.ty v).text) : Act Value)
      (Act.fail (.typeMismatch "function" (Value.ty (v.relabel R.map)).text)) :=
    .fail (by rw [Value.ty_relabel])
  cases v with
  | func f => exact hE.call f [x]
  | _ => exact hrefused

theorem routine_equivariant (hE : E.Respects R) (self : Nat) (name : String) (held args : List Value) :
    Equivariant R (Value.relabel R.map) (Routine.run E self name held args)
      (Routine.run E (R.map self) name (held.map (Value.relabel R.map)) (args.map (Value.relabel R.map))) := by
  by_cases htakes : Routine.Takes name held args
  · cases htakes with
    | id | pack | const => exact .pure (by simp [Value.relabel])
    | len held x => exact .pure (by cases x <;> rfl)
    | inc held x => exact .lift (increment_relabel x)
    | arg index => exact .pure (getD_relabel args _)
    | fail message => exact .fail rfl
    | apply held v x => exact application_equivariant hE self held v x
    | cell name => exact readCell_equivariant name
    | flaky fails f => exact (failFirst_equivariant self _).bind fun _ => hE.call f args
    | trace label f =>
        show Equivariant R _ (Act.logLine (label ++ "(" ++ ", ".intercalate (Value.texts args) ++ ")") >>= fun _ => _)
          (Act.logLine (label ++ "(" ++ ", ".intercalate (Value.texts (args.map (Value.relabel R.map))) ++ ")") >>=
            fun _ => _)
        rw [Value.texts_relabel]
        exact (logLine_equivariant _).bind fun _ => hE.call f args
  · rw [Routine.run_refused htakes, Routine.run_refused fun h => htakes h.of_relabel]
    exact .fail rfl

/-! ## Recipes -/

/-- A finished parameter among those a recipe declares keeps its number. -/
def Binder.Fixed (ρ : Nat → Nat) : Binder → Prop
  | .known p => p.relabel ρ = p
  | _ => True

mutual

/-- Finished things in the recipe keep their numbers. -/
def ExprRecipe.Fixed (ρ : Nat → Nat) : ExprRecipe → Prop
  | .done t => t.relabel ρ = t
  | .scoped _ | .captured _ | .capturedValue _ => True
  | .constant v | .literal v _ => v.Fixed ρ
  | .staticMember m => m.Fixed ρ
  | .member m target => m.Fixed ρ ∧ target.Fixed ρ
  | .staticCall m args => m.Fixed ρ ∧ ExprRecipe.FixedAll ρ args
  | .call m args target => m.Fixed ρ ∧ ExprRecipe.FixedAll ρ args ∧ target.Fixed ρ
  | .operation _ lhs rhs | .bothHold lhs rhs | .eitherHolds lhs rhs => lhs.Fixed ρ ∧ rhs.Fixed ρ
  | .operationVia _ lhs rhs via => lhs.Fixed ρ ∧ rhs.Fixed ρ ∧ via.Fixed ρ
  | .complement operand | .negation operand | .convert operand _ | .notHolds operand => operand.Fixed ρ
  | .unaryVia _ operand via | .convertVia via operand _ => operand.Fixed ρ ∧ via.Fixed ρ
  | .lambda binders body => (∀ b ∈ binders, b.Fixed ρ) ∧ body.Fixed ρ
  | .invoke callee args => callee.Fixed ρ ∧ ExprRecipe.FixedAll ρ args
  | .conditional test ifTrue ifFalse => test.Fixed ρ ∧ ifTrue.Fixed ρ ∧ ifFalse.Fixed ρ
  | .invoked d arg | .called d arg => d.relabel ρ = d ∧ arg.Fixed ρ
  | .treeOf d => d.relabel ρ = d
  | .bind k args => k.relabel ρ = k ∧ ExprRecipe.FixedAll ρ args
  | .bindFirst k arg => k.relabel ρ = k ∧ arg.Fixed ρ

def ExprRecipe.FixedAll (ρ : Nat → Nat) : List ExprRecipe → Prop
  | [] => True
  | r :: rs => r.Fixed ρ ∧ ExprRecipe.FixedAll ρ rs

def ValueRecipe.Fixed (ρ : Nat → Nat) : ValueRecipe → Prop
  | .done v => v.relabel ρ = v
  | .list items => ValueRecipe.FixedAll ρ items
  | .func f => f.Fixed ρ
  | .record _ fields => ValueRecipe.FixedFields ρ fields

def ValueRecipe.FixedAll (ρ : Nat → Nat) : List ValueRecipe → Prop
  | [] => True
  | r :: rs => r.Fixed ρ ∧ ValueRecipe.FixedAll ρ rs

def ValueRecipe.FixedFields (ρ : Nat → Nat) : List (String × ValueRecipe) → Prop
  | [] => True
  | (_, r) :: rs => r.Fixed ρ ∧ ValueRecipe.FixedFields ρ rs

def FuncRecipe.Fixed (ρ : Nat → Nat) : FuncRecipe → Prop
  | .done f => f.relabel ρ = f
  | .compiled e => e.Fixed ρ
  | .routine _ _ held => ValueRecipe.FixedAll ρ held
  | .flaky _ f | .trace _ f => f.Fixed ρ

def MemberRecipe.Fixed (ρ : Nat → Nat) : MemberRecipe → Prop
  | .done m => m.relabel ρ = m
  | .staticField _ _ _ v => v.Fixed ρ
  | .property _ _ _ f | .staticProperty _ _ _ f => f.Fixed ρ

def MethodRecipe.Fixed (ρ : Nat → Nat) : MethodRecipe → Prop
  | .done m => m.relabel ρ = m
  | .onArguments _ _ _ _ f | .onTarget _ _ _ _ f => f.Fixed ρ

end

/-- What a recipe is followed in, with other numbers. -/
def Surroundings.relabel (ρ : Nat → Nat) (S : Surroundings) : Surroundings :=
  ⟨S.params.map fun (key, p) => (key, p.relabel ρ), S.captured.map (Captured.relabel ρ)⟩

theorem param_equivariant (S : Surroundings) (key : String) :
    Equivariant R (Param.relabel R.map) (S.param key) ((S.relabel R.map).param key) := by
  have hfind : (S.relabel R.map).params.find? (·.1 = key) =
      (S.params.find? (·.1 = key)).map fun (key, p) => (key, p.relabel R.map) := List.find?_map ..
  unfold Surroundings.param
  rw [hfind]
  cases S.params.find? (·.1 = key) with
  | some b => exact .pure rfl
  | none => exact .fail rfl

theorem argument_equivariant (S : Surroundings) (index : Nat) :
    Equivariant R (Captured.relabel R.map) (S.argument index) ((S.relabel R.map).argument index) := by
  unfold Surroundings.argument Surroundings.relabel
  rw [List.getElem?_map]
  cases S.captured[index]? with
  | some c => exact .pure rfl
  | none => exact .fail rfl

theorem captured_get_equivariant (hE : E.Respects R) (c : Captured) :
    Equivariant R (Value.relabel R.map) (c.get E) ((c.relabel R.map).get E) := by
  obtain ⟨formal, v | f⟩ := c
  · exact .pure rfl
  · exact hE.call f []

theorem captured_expr_equivariant (c : Captured) :
    Equivariant R (Tree.relabel R.map) c.expr (c.relabel R.map).expr := by
  have hstored : (c.relabel R.map).stored = c.stored.relabel R.map := by
    obtain ⟨formal, v | f⟩ := c <;> rfl
  unfold Captured.expr
  rw [hstored]
  exact (newRecord_equivariant (Captured.container c.formal) [(c.formal.name, c.stored)]).bind fun _ => .pure rfl

theorem declare_equivariant : ∀ (S : Surroundings) (binders : List Binder), (∀ b ∈ binders, b.Fixed R.map) →
    Equivariant R (Prod.map (List.map (Param.relabel R.map)) (Surroundings.relabel R.map)) (S.declare binders)
      ((S.relabel R.map).declare binders)
  | S, [], _ => .pure rfl
  | S, binder :: rest, h => by
      have hrest : ∀ (p : Param) (S : Surroundings), Equivariant R
          (Prod.map (List.map (Param.relabel R.map)) (Surroundings.relabel R.map))
          (S.declare rest >>= fun r => pure (p :: r.1, r.2))
          ((S.relabel R.map).declare rest >>= fun r => pure (p.relabel R.map :: r.1, r.2)) := fun p S =>
        (declare_equivariant S rest fun b hb => h b (List.mem_cons_of_mem _ hb)).bind fun r => .pure rfl
      unfold Surroundings.declare
      rcases binder with ⟨key, name, ty⟩ | key | p
      · exact freshId_equivariant.bind fun id => hrest ⟨id, name, ty⟩ _
      · exact (param_equivariant S key).bind fun p => hrest p S
      · have hp : p.relabel R.map = p := h _ (List.mem_cons_self ..)
        have hknown := hrest p S
        rw [hp] at hknown
        exact hknown

theorem constant_relabel {ρ : Nat → Nat} (v : Value) :
    Tree.constant (v.relabel ρ) = (Tree.constant v).relabel ρ := by
  unfold Tree.constant
  rw [Value.ty_relabel, Tree.relabel]

theorem invoked_relabel {ρ : Nat → Nat} (d : Dual) (arg : Expr) :
    (d.relabel ρ).invoked (arg.relabel ρ) = (d.invoked arg).relabel ρ := by cases d; rfl

theorem called_relabel {ρ : Nat → Nat} (d : Dual) (arg : Expr) :
    (d.relabel ρ).called (arg.relabel ρ) = (d.called arg).relabel ρ := by cases d; rfl

theorem bindFirstExpr_relabel {ρ : Nat → Nat} (k : Factory) (arg : Expr) :
    (k.relabel ρ).bindFirstExpr (arg.relabel ρ) = (k.bindFirstExpr arg).relabel ρ := by cases k; rfl

theorem bindExpr_relabel {ρ : Nat → Nat} (k : Factory) (as : List Expr) :
    (k.relabel ρ).bindExpr (as.map (Tree.relabel ρ)) = (k.bindExpr as).relabel ρ := by
  obtain ⟨id, kind, builders, bound, next, second, source, result⟩ := k
  rw [Factory.bindExpr, Factory.bindExpr, Tree.relabel, Tree.relabelAll_eq_map]
  rfl

theorem sourceOf_relabel {ρ : Nat → Nat} (t : Expr) :
    Specification.sourceOf (t.relabel ρ) = Specification.sourceOf t := by
  unfold Specification.sourceOf
  rw [Tree.ty_relabel]

theorem conjunctionExpr_relabel {ρ : Nat → Nat} (l r : Expr) :
    Specification.conjunctionExpr (l.relabel ρ) (r.relabel ρ) =
      (Specification.conjunctionExpr l r).map (Tree.relabel ρ) := by
  unfold Specification.conjunctionExpr
  rw [sourceOf_relabel]
  cases Specification.sourceOf l <;> rfl

theorem disjunctionExpr_relabel {ρ : Nat → Nat} (l r : Expr) :
    Specification.disjunctionExpr (l.relabel ρ) (r.relabel ρ) =
      (Specification.disjunctionExpr l r).map (Tree.relabel ρ) := by
  unfold Specification.disjunctionExpr
  rw [sourceOf_relabel]
  cases Specification.sourceOf l <;> rfl

theorem negationExpr_relabel {ρ : Nat → Nat} (t : Expr) :
    Specification.negationExpr (t.relabel ρ) = (Specification.negationExpr t).map (Tree.relabel ρ) := by
  unfold Specification.negationExpr
  rw [sourceOf_relabel]
  cases Specification.sourceOf t <;> rfl

section Recipes

set_option linter.unusedSectionVars false

variable (hE : E.Respects R)

include hE

mutual

theorem exprRecipe_equivariant : ∀ (S : Surroundings) (r : ExprRecipe), r.Fixed R.map →
    Equivariant R (Tree.relabel R.map) (r.make E S) (r.make E (S.relabel R.map))
  | _, .done _, h => .pure h.symm
  | S, .scoped key, _ => (param_equivariant S key).bind fun _ => .pure rfl
  | S, .constant v, h => (valueRecipe_equivariant S v h).bind fun w => .pure (constant_relabel w)
  | S, .literal v _, h => (valueRecipe_equivariant S v h).bind fun _ => .pure rfl
  | S, .staticMember m, h => (memberRecipe_equivariant S m h).bind fun _ => .pure rfl
  | S, .member m target, h =>
      (memberRecipe_equivariant S m h.1).bind fun _ => (exprRecipe_equivariant S target h.2).bind fun _ =>
        .pure rfl
  | S, .staticCall m args, h =>
      (methodRecipe_equivariant S m h.1).bind fun _ => (exprRecipes_equivariant S args h.2).bind fun _ =>
        .pure (by rw [Tree.relabel, Tree.relabelAll_eq_map])
  | S, .call m args target, h =>
      (methodRecipe_equivariant S m h.1).bind fun _ => (exprRecipes_equivariant S args h.2.1).bind fun _ =>
        (exprRecipe_equivariant S target h.2.2).bind fun _ =>
          .pure (by rw [Tree.relabel, Tree.relabelAll_eq_map])
  | S, .operation _ lhs rhs, h =>
      (exprRecipe_equivariant S lhs h.1).bind fun _ => (exprRecipe_equivariant S rhs h.2).bind fun _ =>
        .pure rfl
  | S, .operationVia _ lhs rhs via, h =>
      (exprRecipe_equivariant S lhs h.1).bind fun _ => (exprRecipe_equivariant S rhs h.2.1).bind fun _ =>
        (methodRecipe_equivariant S via h.2.2).bind fun _ => .pure rfl
  | S, .complement operand, h => (exprRecipe_equivariant S operand h).bind fun _ => .pure rfl
  | S, .negation operand, h => (exprRecipe_equivariant S operand h).bind fun _ =>
      .pure (by rw [Tree.negation, Tree.ty_relabel]; rfl)
  | S, .unaryVia _ operand via, h =>
      (exprRecipe_equivariant S operand h.1).bind fun _ => (methodRecipe_equivariant S via h.2).bind fun _ =>
        .pure (by rw [Tree.unaryVia, Method.relabel_signature]; rfl)
  | S, .convert operand _, h => (exprRecipe_equivariant S operand h).bind fun _ => .pure rfl
  | S, .convertVia via operand _, h =>
      (methodRecipe_equivariant S via h.2).bind fun _ => (exprRecipe_equivariant S operand h.1).bind fun _ =>
        .pure rfl
  | S, .lambda binders body, h =>
      (declare_equivariant S binders h.1).bind fun r => (exprRecipe_equivariant r.2 body h.2).bind fun _ =>
        .pure rfl
  | S, .invoke callee args, h =>
      (exprRecipe_equivariant S callee h.1).bind fun _ => (exprRecipes_equivariant S args h.2).bind fun _ =>
        .pure (by rw [Tree.relabel, Tree.relabelAll_eq_map])
  | S, .conditional test ifTrue ifFalse, h =>
      (exprRecipe_equivariant S test h.1).bind fun _ => (exprRecipe_equivariant S ifTrue h.2.1).bind fun _ =>
        (exprRecipe_equivariant S ifFalse h.2.2).bind fun _ => .pure rfl
  | S, .invoked d arg, h => (exprRecipe_equivariant S arg h.2).bind fun _ =>
      .pure (by rw [← invoked_relabel, h.1])
  | S, .called d arg, h => (exprRecipe_equivariant S arg h.2).bind fun _ =>
      .pure (by rw [← called_relabel, h.1])
  | _, .treeOf d, h => by
      have htree := hE.tree d
      rw [h] at htree
      exact htree.bind fun l => .pure (Lambda.relabel_tree l)
  | S, .bind k args, h => (exprRecipes_equivariant S args h.2).bind fun as =>
      .pure (by rw [← bindExpr_relabel, h.1])
  | S, .bindFirst k arg, h => (exprRecipe_equivariant S arg h.2).bind fun _ =>
      .pure (by rw [← bindFirstExpr_relabel, h.1])
  | S, .bothHold lhs rhs, h =>
      (exprRecipe_equivariant S lhs h.1).bind fun l => (exprRecipe_equivariant S rhs h.2).bind fun r =>
        .lift (conjunctionExpr_relabel l r)
  | S, .eitherHolds lhs rhs, h =>
      (exprRecipe_equivariant S lhs h.1).bind fun l => (exprRecipe_equivariant S rhs h.2).bind fun r =>
        .lift (disjunctionExpr_relabel l r)
  | S, .notHolds operand, h =>
      (exprRecipe_equivariant S operand h).bind fun t => .lift (negationExpr_relabel t)
  | S, .captured index, _ => (argument_equivariant S index).bind captured_expr_equivariant
  | S, .capturedValue index, _ => (argument_equivariant S index).bind fun c =>
      (captured_get_equivariant hE c).bind fun v => .pure (constant_relabel v)

theorem exprRecipes_equivariant : ∀ (S : Surroundings) (rs : List ExprRecipe), ExprRecipe.FixedAll R.map rs →
    Equivariant R (List.map (Tree.relabel R.map)) (ExprRecipe.makeAll E S rs)
      (ExprRecipe.makeAll E (S.relabel R.map) rs)
  | _, [], _ => .pure rfl
  | S, r :: rs, h => (exprRecipe_equivariant S r h.1).bind fun _ =>
      (exprRecipes_equivariant S rs h.2).bind fun _ => .pure rfl

theorem valueRecipe_equivariant : ∀ (S : Surroundings) (r : ValueRecipe), r.Fixed R.map →
    Equivariant R (Value.relabel R.map) (r.make E S) (r.make E (S.relabel R.map))
  | _, .done _, h => .pure h.symm
  | S, .list items, h => (valueRecipes_equivariant S items h).bind fun _ =>
      .pure (by rw [Value.relabel, Value.relabelAll_eq_map])
  | S, .func f, h => (funcRecipe_equivariant S f h).bind fun _ => .pure rfl
  | S, .record declaring fields, h => (fieldRecipes_equivariant S fields h).bind fun fields =>
      newRecord_equivariant declaring fields

theorem valueRecipes_equivariant : ∀ (S : Surroundings) (rs : List ValueRecipe), ValueRecipe.FixedAll R.map rs →
    Equivariant R (List.map (Value.relabel R.map)) (ValueRecipe.makeAll E S rs)
      (ValueRecipe.makeAll E (S.relabel R.map) rs)
  | _, [], _ => .pure rfl
  | S, r :: rs, h => (valueRecipe_equivariant S r h.1).bind fun _ =>
      (valueRecipes_equivariant S rs h.2).bind fun _ => .pure rfl

theorem fieldRecipes_equivariant : ∀ (S : Surroundings) (rs : List (String × ValueRecipe)),
    ValueRecipe.FixedFields R.map rs → Equivariant R (Value.relabelFields R.map)
      (ValueRecipe.makeFields E S rs) (ValueRecipe.makeFields E (S.relabel R.map) rs)
  | _, [], _ => .pure rfl
  | S, (_, r) :: rs, h => (valueRecipe_equivariant S r h.1).bind fun _ =>
      (fieldRecipes_equivariant S rs h.2).bind fun _ => .pure rfl

theorem funcRecipe_equivariant : ∀ (S : Surroundings) (r : FuncRecipe), r.Fixed R.map →
    Equivariant R (Func.relabel R.map) (r.make E S) (r.make E (S.relabel R.map))
  | _, .done _, h => .pure h.symm
  | S, .compiled e, h => (exprRecipe_equivariant S e h).bind fun t =>
      (Equivariant.lift (Tree.expectLambda_relabel t)).bind compile_equivariant
  | S, .routine name arity held, h => (valueRecipes_equivariant S held h).bind fun vs => by
      have hnew := @newFunc_equivariant R arity (.host name vs)
      rw [Code.relabel, Value.relabelAll_eq_map] at hnew
      exact hnew
  | S, .flaky fails f, h => (funcRecipe_equivariant S f h).bind fun g => by
      have hnew := @newFunc_equivariant R g.arity (.host "flaky" [.int (Int64.ofNat fails), .func g])
      rw [Func.relabel_arity]
      exact hnew
  | S, .trace label f, h => (funcRecipe_equivariant S f h).bind fun g => by
      have hnew := @newFunc_equivariant R g.arity (.host "trace" [.str label, .func g])
      rw [Func.relabel_arity]
      exact hnew

theorem memberRecipe_equivariant : ∀ (S : Surroundings) (r : MemberRecipe), r.Fixed R.map →
    Equivariant R (Member.relabel R.map) (r.make E S) (r.make E (S.relabel R.map))
  | _, .done _, h => .pure h.symm
  | S, .staticField _ _ _ v, h => (valueRecipe_equivariant S v h).bind fun _ => .pure rfl
  | S, .property _ _ _ f, h => (funcRecipe_equivariant S f h).bind fun _ => .pure rfl
  | S, .staticProperty _ _ _ f, h => (funcRecipe_equivariant S f h).bind fun _ => .pure rfl

theorem methodRecipe_equivariant : ∀ (S : Surroundings) (r : MethodRecipe), r.Fixed R.map →
    Equivariant R (Method.relabel R.map) (r.make E S) (r.make E (S.relabel R.map))
  | _, .done _, h => .pure h.symm
  | S, .onArguments _ _ _ _ f, h => (funcRecipe_equivariant S f h).bind fun _ => .pure rfl
  | S, .onTarget _ _ _ _ f, h => (funcRecipe_equivariant S f h).bind fun _ => .pure rfl

end

end Recipes

/-! ## Builders and decompilers -/

/-- The recipes of a builder have the property, and values it compares with keep their numbers. -/
def Builder.Fixed (ρ : Nat → Nat) (p : α → Prop) : Builder α → Prop
  | .recipe r => p r
  | .fail _ => True
  | .trace _ next | .shown _ next => next.Fixed ρ p
  | .flaky id _ next => ρ id = id ∧ next.Fixed ρ p
  | .choose _ v same other => v.relabel ρ = v ∧ same.Fixed ρ p ∧ other.Fixed ρ p

/-- Finished things in the recipe keep their numbers. -/
def DecompilerRecipe.Fixed (ρ : Nat → Nat) : DecompilerRecipe → Prop
  | .tree e => e.Fixed ρ
  | .fail _ => True
  | .probe v => v.relabel ρ = v
  | .trace _ next => next.Fixed ρ

/-- Finished things in what is registered keep their numbers. -/
structure Registry.Fixed (ρ : Nat → Nat) (r : Registry) : Prop where
  trees : ∀ b ∈ r.treeBuilders, b.Fixed ρ (ExprRecipe.Fixed ρ)
  functions : ∀ b ∈ r.functionBuilders, b.Fixed ρ (FuncRecipe.Fixed ρ)
  decompilers : ∀ d ∈ r.decompilers, d.Fixed ρ

theorem shownText_relabel {ρ : Nat → Nat} (c : Captured) :
    Builder.shownText (c.relabel ρ) = Builder.shownText c := by
  obtain ⟨formal, v | f⟩ := c
  · simp [Builder.shownText, Captured.inspect, Captured.relabel, CapturedSource.relabel, Captured.isDeferred]
  · rfl

theorem builder_equivariant (hE : E.Respects R) {q : β → γ} {p : α → Prop}
    {follow : Surroundings → α → Act β} {follow' : Surroundings → α → Act γ}
    (hfollow : ∀ S r, p r → Equivariant R q (follow S r) (follow' (S.relabel R.map) r)) (args : List Captured)
    (b : Builder α) (h : b.Fixed R.map p) :
    Equivariant R q (b.make E follow args) (b.make E follow' (args.map (Captured.relabel R.map))) := by
  induction b with
  | recipe r => exact hfollow ⟨[], args⟩ r h
  | fail message => exact .fail rfl
  | trace label next ih => exact (logLine_equivariant label).bind fun _ => ih h
  | shown index next ih =>
      refine (argument_equivariant ⟨[], args⟩ index).bind fun c => ?_
      rw [shownText_relabel]
      exact (logLine_equivariant _).bind fun _ => ih h
  | flaky id fails next ih =>
      have hfail := @failFirst_equivariant R id fails
      rw [h.1] at hfail
      exact hfail.bind fun _ => ih h.2
  | choose index v same other ihs iho =>
      refine (argument_equivariant ⟨[], args⟩ index).bind fun c => (captured_get_equivariant hE c).bind fun w => ?_
      have hsame : Value.same (w.relabel R.map) v = Value.same w v := by
        conv_lhs => rw [← h.1]
        exact Value.same_relabel R.injective w v
      rw [hsame]
      split
      · exact ihs h.2.1
      · exact iho h.2.2

theorem decompiler_equivariant (hE : E.Respects R) (f : Func) (d : DecompilerRecipe) (h : d.Fixed R.map) :
    Equivariant R (Lambda.relabel R.map) (d.make E f) (d.make E (f.relabel R.map)) := by
  induction d with
  | tree e =>
      exact (exprRecipe_equivariant hE ⟨[], []⟩ e h).bind fun t => .lift (Tree.expectLambda_relabel t)
  | fail message => exact .fail rfl
  | probe v =>
      have hcall := hE.call f [v]
      rw [List.map_cons, List.map_nil, show v.relabel R.map = v from h] at hcall
      exact hcall.bind fun w => freshId_equivariant.bind fun id => .pure (by rw [constant_relabel]; rfl)
  | trace label next ih =>
      have hinspect : (f.relabel R.map).inspect = f.inspect := by rw [Func.inspect, Func.relabel_arity]; rfl
      unfold DecompilerRecipe.make
      rw [hinspect]
      exact (logLine_equivariant _).bind fun _ => ih h

theorem entry_equivariant {q : β → γ} {entries : Array α} {id : Nat} {make : α → Act β} {make' : α → Act γ}
    (h : ∀ e ∈ entries, Equivariant R q (make e) (make' e)) :
    Equivariant R q (Registry.entry entries id make) (Registry.entry entries id make') := by
  unfold Registry.entry
  cases he : entries[id]? with
  | some e => exact h e (Array.mem_of_getElem? he)
  | none => exact .fail rfl

/-- **What registered host code does depends on no numbers** but those of the finished things in it. -/
theorem registry_respects {r : Registry} (h : r.Fixed R.map) : r.host.Respects R where
  run _ hE self name held args := routine_equivariant hE self name held args
  buildTree _ hE _ args := entry_equivariant fun b hb => builder_equivariant hE
    (fun S e he => (exprRecipe_equivariant hE S e he).bind fun t => .lift (Tree.expectLambda_relabel t)) args b
    (h.trees b hb)
  buildFunction _ hE _ args := entry_equivariant fun b hb =>
    builder_equivariant hE (fun S f hf => funcRecipe_equivariant hE S f hf) args b (h.functions b hb)
  decompile _ hE _ f := entry_equivariant fun d hd => decompiler_equivariant hE f d (h.decompilers d hd)

end DualForm
