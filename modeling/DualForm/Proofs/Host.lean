import DualForm.Host.Registry
import DualForm.Proofs.Preservation

/-!
# What registered host code never undoes

* `Formal I` — `I` looks at identities and published forms only, not at the state of host code.

Principal results: `registry_concur` — on engines that concur where an invariant of this kind holds,
the routines, and every builder and decompiler that can be registered, do the same, and keep it if it
survives new identities; `registry_keeps` — the same for one engine.
-/

namespace DualForm

open Act (Keeps Concur)

variable {I : Store → Prop} {E E' : Engine} {α β : Type}

/-- The invariant looks at identities and published forms only. -/
structure Formal (I : Store → Prop) : Prop where
  cells : ∀ (s : Store) cells, I s → I { s with cells }
  attempts : ∀ (s : Store) attempts, I s → I { s with attempts }
  log : ∀ (s : Store) log, I s → I { s with log }

theorem formal_tree (id : Nat) (l : Lam) : Formal (TreePublished id l) :=
  ⟨fun _ _ h => h, fun _ _ h => h, fun _ _ h => h⟩

theorem formal_function (id : Nat) (f : Func) : Formal (FunctionPublished id f) :=
  ⟨fun _ _ h => h, fun _ _ h => h, fun _ _ h => h⟩

/-! ## Routines -/

theorem logLine_concur (hF : Formal I) (line : String) :
    Concur I (Act.logLine line) (Act.logLine line) :=
  .refl ⟨fun s hs => hF.log s _ hs⟩

theorem get_concur : Concur I (get : Act Store) get := .refl ⟨fun _ hs => hs⟩

theorem failFirst_concur (hF : Formal I) (id fails : Nat) :
    Concur I (failFirst id fails) (failFirst id fails) := by
  unfold failFirst
  refine get_concur.bind fun s => ?_
  dsimp only
  split
  · exact Concur.bind (.refl ⟨fun t ht => hF.attempts t _ ht⟩) fun _ => Concur.fail _
  · exact Concur.pure _

theorem readCell_concur (name : String) : Concur I (readCell name) (readCell name) := by
  unfold readCell
  refine get_concur.bind fun s => ?_
  split
  · exact Concur.pure _
  · exact Concur.fail _

theorem routine_concur (hF : Formal I) (hE : E.Concur I E') (self : Nat) (name : String)
    (held args : List Value) :
    Concur I (Routine.run E self name held args) (Routine.run E' self name held args) := by
  unfold Routine.run
  split
  · exact Concur.pure _
  · exact Concur.pure _
  · exact Concur.lift _
  · exact Concur.pure _
  · exact Concur.pure _
  · exact Concur.pure _
  · exact Concur.fail _
  · exact hE.call ..
  · exact Concur.fail _
  · exact readCell_concur _
  · exact (failFirst_concur hF ..).bind fun _ => hE.call ..
  · exact (logLine_concur hF _).bind fun _ => hE.call ..
  · exact Concur.fail _

/-! ## Recipes -/

theorem newRecord_concur (hI : Growing I) (declaring : DeclaringType)
    (fields : List (String × Value)) :
    Concur I (Act.newRecord declaring fields) (Act.newRecord declaring fields) :=
  (freshId_concur hI).bind fun id => Concur.pure (Datum.record id declaring fields)

theorem param_concur (S : Surroundings) (key : String) : Concur I (S.param key) (S.param key) := by
  unfold Surroundings.param
  split
  · exact Concur.pure _
  · exact Concur.fail _

theorem argument_concur (S : Surroundings) (index : Nat) :
    Concur I (S.argument index) (S.argument index) := by
  unfold Surroundings.argument
  split
  · exact Concur.pure _
  · exact Concur.fail _

theorem captured_get_concur (hE : E.Concur I E') (c : Captured) :
    Concur I (c.get E) (c.get E') := by
  unfold Captured.get
  split
  · exact Concur.pure _
  · exact hE.call ..

theorem declare_concur (hI : Growing I) : ∀ (S : Surroundings) (binders : List Binder),
    Concur I (S.declare binders) (S.declare binders)
  | S, [] => Concur.pure ([], S)
  | S, binder :: rest => by
      have hrest : ∀ (p : Param) (S : Surroundings),
          Concur I (S.declare rest >>= fun r => pure (p :: r.1, r.2))
            (S.declare rest >>= fun r => pure (p :: r.1, r.2)) := fun p S =>
        (declare_concur hI S rest).bind fun r => Concur.pure _
      unfold Surroundings.declare
      rcases binder with ⟨key, name, ty⟩ | key | p
      · exact (freshId_concur hI).bind fun id => hrest ..
      · exact (param_concur S key).bind fun p => hrest p S
      · exact hrest p S

section Recipes

set_option linter.unusedSectionVars false

variable (hI : Growing I) (hE : E.Concur I E')

include hI hE

mutual

theorem exprRecipe_concur : ∀ (S : Surroundings) (r : ExprRecipe), Concur I (r.make E S) (r.make E' S)
  | _, .done t => Concur.pure t
  | S, .scoped key => (param_concur S key).bind fun _ => Concur.pure _
  | S, .constant v => (valueRecipe_concur S v).bind fun _ => Concur.pure _
  | S, .literal v _ => (valueRecipe_concur S v).bind fun _ => Concur.pure _
  | S, .staticMember m => (memberRecipe_concur S m).bind fun _ => Concur.pure _
  | S, .member m target =>
      (memberRecipe_concur S m).bind fun _ => (exprRecipe_concur S target).bind fun _ =>
        Concur.pure _
  | S, .staticCall m args =>
      (methodRecipe_concur S m).bind fun _ => (exprRecipes_concur S args).bind fun _ =>
        Concur.pure _
  | S, .call m args target =>
      (methodRecipe_concur S m).bind fun _ => (exprRecipes_concur S args).bind fun _ =>
        (exprRecipe_concur S target).bind fun _ => Concur.pure _
  | S, .operation _ lhs rhs =>
      (exprRecipe_concur S lhs).bind fun _ => (exprRecipe_concur S rhs).bind fun _ => Concur.pure _
  | S, .operationVia _ lhs rhs via =>
      (exprRecipe_concur S lhs).bind fun _ => (exprRecipe_concur S rhs).bind fun _ =>
        (methodRecipe_concur S via).bind fun _ => Concur.pure _
  | S, .complement operand => (exprRecipe_concur S operand).bind fun _ => Concur.pure _
  | S, .negation operand => (exprRecipe_concur S operand).bind fun _ => Concur.pure _
  | S, .unaryVia _ operand via =>
      (exprRecipe_concur S operand).bind fun _ => (methodRecipe_concur S via).bind fun _ =>
        Concur.pure _
  | S, .convert operand _ => (exprRecipe_concur S operand).bind fun _ => Concur.pure _
  | S, .convertVia via operand _ =>
      (methodRecipe_concur S via).bind fun _ => (exprRecipe_concur S operand).bind fun _ =>
        Concur.pure _
  | S, .lambda binders body =>
      (declare_concur hI S binders).bind fun r => (exprRecipe_concur r.2 body).bind fun _ =>
        Concur.pure _
  | S, .invoke callee args =>
      (exprRecipe_concur S callee).bind fun _ => (exprRecipes_concur S args).bind fun _ =>
        Concur.pure _
  | S, .conditional test ifTrue ifFalse =>
      (exprRecipe_concur S test).bind fun _ => (exprRecipe_concur S ifTrue).bind fun _ =>
        (exprRecipe_concur S ifFalse).bind fun _ => Concur.pure _
  | S, .invoked _ arg => (exprRecipe_concur S arg).bind fun _ => Concur.pure _
  | S, .called _ arg => (exprRecipe_concur S arg).bind fun _ => Concur.pure _
  | _, .treeOf d => (hE.tree d).bind fun _ => Concur.pure _
  | S, .bind _ args => (exprRecipes_concur S args).bind fun _ => Concur.pure _
  | S, .bindFirst _ arg => (exprRecipe_concur S arg).bind fun _ => Concur.pure _
  | S, .bothHold lhs rhs =>
      (exprRecipe_concur S lhs).bind fun _ => (exprRecipe_concur S rhs).bind fun _ => Concur.lift _
  | S, .eitherHolds lhs rhs =>
      (exprRecipe_concur S lhs).bind fun _ => (exprRecipe_concur S rhs).bind fun _ => Concur.lift _
  | S, .notHolds operand => (exprRecipe_concur S operand).bind fun _ => Concur.lift _
  | S, .captured index => (argument_concur S index).bind fun _ =>
      (newRecord_concur hI ..).bind fun _ => Concur.pure _
  | S, .capturedValue index => (argument_concur S index).bind fun c =>
      (captured_get_concur hE c).bind fun _ => Concur.pure _

theorem exprRecipes_concur : ∀ (S : Surroundings) (rs : List ExprRecipe),
    Concur I (ExprRecipe.makeAll E S rs) (ExprRecipe.makeAll E' S rs)
  | _, [] => Concur.pure []
  | S, r :: rs =>
      (exprRecipe_concur S r).bind fun _ => (exprRecipes_concur S rs).bind fun _ => Concur.pure _

theorem valueRecipe_concur : ∀ (S : Surroundings) (r : ValueRecipe),
    Concur I (r.make E S) (r.make E' S)
  | _, .done v => Concur.pure v
  | S, .list items => (valueRecipes_concur S items).bind fun _ => Concur.pure _
  | S, .func f => (funcRecipe_concur S f).bind fun _ => Concur.pure _
  | S, .record _ fields =>
      (fieldRecipes_concur S fields).bind fun _ => newRecord_concur hI ..

theorem valueRecipes_concur : ∀ (S : Surroundings) (rs : List ValueRecipe),
    Concur I (ValueRecipe.makeAll E S rs) (ValueRecipe.makeAll E' S rs)
  | _, [] => Concur.pure []
  | S, r :: rs => (valueRecipe_concur S r).bind fun _ =>
      (valueRecipes_concur S rs).bind fun _ => Concur.pure _

theorem fieldRecipes_concur : ∀ (S : Surroundings) (rs : List (String × ValueRecipe)),
    Concur I (ValueRecipe.makeFields E S rs) (ValueRecipe.makeFields E' S rs)
  | _, [] => Concur.pure []
  | S, (_, r) :: rs => (valueRecipe_concur S r).bind fun _ =>
      (fieldRecipes_concur S rs).bind fun _ => Concur.pure _

theorem funcRecipe_concur : ∀ (S : Surroundings) (r : FuncRecipe), Concur I (r.make E S) (r.make E' S)
  | _, .done f => Concur.pure f
  | S, .compiled e =>
      (exprRecipe_concur S e).bind fun _ => (Concur.lift _).bind fun _ => newFunc_concur hI ..
  | S, .routine _ _ held => (valueRecipes_concur S held).bind fun _ => newFunc_concur hI ..
  | S, .flaky _ f => (funcRecipe_concur S f).bind fun _ => newFunc_concur hI ..
  | S, .trace _ f => (funcRecipe_concur S f).bind fun _ => newFunc_concur hI ..

theorem memberRecipe_concur : ∀ (S : Surroundings) (r : MemberRecipe),
    Concur I (r.make E S) (r.make E' S)
  | _, .done m => Concur.pure m
  | S, .staticField _ _ _ v => (valueRecipe_concur S v).bind fun _ => Concur.pure _
  | S, .property _ _ _ f => (funcRecipe_concur S f).bind fun _ => Concur.pure _
  | S, .staticProperty _ _ _ f => (funcRecipe_concur S f).bind fun _ => Concur.pure _

theorem methodRecipe_concur : ∀ (S : Surroundings) (r : MethodRecipe),
    Concur I (r.make E S) (r.make E' S)
  | _, .done m => Concur.pure m
  | S, .onArguments _ _ _ _ f =>
      (funcRecipe_concur S f).bind fun _ => Concur.pure _
  | S, .onTarget _ _ _ _ f =>
      (funcRecipe_concur S f).bind fun _ => Concur.pure _

end

end Recipes

/-! ## Builders and decompilers -/

theorem builder_concur (hF : Formal I) (hE : E.Concur I E')
    {follow follow' : Surroundings → α → Act β}
    (hfollow : ∀ S r, Concur I (follow S r) (follow' S r)) (args : List Captured) (b : Builder α) :
    Concur I (b.make E follow args) (b.make E' follow' args) := by
  induction b with
  | recipe r => exact hfollow _ r
  | fail message => exact Concur.fail _
  | trace label next ih => exact (logLine_concur hF label).bind fun _ => ih
  | shown index next ih =>
      exact (argument_concur _ index).bind fun c => (logLine_concur hF _).bind fun _ => ih
  | flaky id fails next ih => exact (failFirst_concur hF id fails).bind fun _ => ih
  | choose index v same other ihs iho =>
      refine (argument_concur _ index).bind fun c => (captured_get_concur hE c).bind fun w => ?_
      split
      · exact ihs
      · exact iho

theorem decompiler_concur (hI : Growing I) (hF : Formal I) (hE : E.Concur I E') (f : Func)
    (d : DecompilerRecipe) : Concur I (d.make E f) (d.make E' f) := by
  induction d with
  | tree e => exact (exprRecipe_concur hI hE _ e).bind fun t => Concur.lift _
  | fail message => exact Concur.fail _
  | probe v =>
      exact (hE.call ..).bind fun w => (freshId_concur hI).bind fun id => Concur.pure _
  | trace label next ih => exact (logLine_concur hF _).bind fun _ => ih

theorem entry_concur {entries : Array α} {id : Nat} {make make' : α → Act β}
    (h : ∀ e, Concur I (make e) (make' e)) :
    Concur I (Registry.entry entries id make) (Registry.entry entries id make') := by
  unfold Registry.entry
  split
  · exact h _
  · exact Concur.fail _

/-- **Registered host code sees nothing of the engine but its answers, and keeps what looks at
identities and published forms only and survives new identities.** -/
theorem registry_concur (hI : Growing I) (hF : Formal I) (hE : E.Concur I E') (r : Registry) :
    r.host.Concur I E E' where
  run self name held args := routine_concur hF hE self name held args
  buildTree _ args := entry_concur fun b => builder_concur hF hE
    (fun S e => (exprRecipe_concur hI hE S e).bind fun _ => Concur.lift _) args b
  buildFunction _ args := entry_concur fun b => builder_concur hF hE
    (fun S f => funcRecipe_concur hI hE S f) args b
  decompile _ f := entry_concur fun d => decompiler_concur hI hF hE f d

/-- Registered host code keeps whatever lasts and looks at identities and published forms only. -/
theorem registry_keeps (hI : Lasting I) (hF : Formal I) (r : Registry) : r.host.Keeps I := by
  have h : ∀ E, E.Keeps I → r.host.Concur I E E := fun E hE =>
    registry_concur hI.identity hF hE.concur r
  exact ⟨fun E hE self name held args => ((h E hE).run self name held args).keeps,
    fun E hE id args => ((h E hE).buildTree id args).keeps,
    fun E hE id args => ((h E hE).buildFunction id args).keeps,
    fun E hE id f => ((h E hE).decompile id f).keeps⟩

end DualForm
