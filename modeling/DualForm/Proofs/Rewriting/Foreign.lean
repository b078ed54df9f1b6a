import DualForm.Proofs.Rewriting.Inert
import DualForm.Rewriting.Pass

/-!
# Trees that refer to no dual

* `Tree.recode getter invoker t` — the tree with other code behind its members and methods, which are
  otherwise described as before.

Principal result: `rewriteDefault_unreferenced` — the pipeline gives a tree without references back, whatever
the engine answers and whatever code stands behind the members and methods of the tree, so that none of it
is run.
-/

namespace DualForm

/-- Other code behind the member or method of a node. -/
def Node.recode {α : Type} (getter : Member Getter → Getter) (invoker : Method Invoker → Invoker) :
    ExprNode α → ExprNode α
  | .staticMember m => .staticMember { m with getter := getter m }
  | .member target m => .member target { m with getter := getter m }
  | .staticCall m args => .staticCall { m with invoker := invoker m } args
  | .call target m args => .call target { m with invoker := invoker m } args
  | .binary op lhs rhs via => .binary op lhs rhs (via.map fun m => { m with invoker := invoker m })
  | .unary op operand via ty => .unary op operand (via.map fun m => { m with invoker := invoker m }) ty
  | n => n

namespace Tree

variable (getter : Member Getter → Getter) (invoker : Method Invoker → Invoker)

/-- Other code behind the members and methods of a tree. -/
def recode (t : Expr) : Expr := t.fold fun n => ((n.map Prod.snd).recode getter invoker).tree

theorem recode_eq (t : Expr) :
    t.recode getter invoker = ((t.node.map (recode getter invoker)).recode getter invoker).tree := by
  unfold recode
  rw [fold_eq, Node.map_map]
  rfl

theorem children_recode (t : Expr) :
    (t.recode getter invoker).children = t.children.map (recode getter invoker) := by
  rw [recode_eq]
  cases t <;> rfl

/-- What a node refers to does not depend on the code. -/
theorem refersToDual_recode (t : Expr) : (t.recode getter invoker).refersToDual = t.refersToDual := by
  rw [recode_eq]
  cases t with
  | binary op lhs rhs via | unary op operand via => cases via <;> rfl
  | _ => rfl

theorem everywhere_recode {t : Expr} (h : t.Everywhere fun u => u.refersToDual = false) :
    (t.recode getter invoker).Everywhere fun u => u.refersToDual = false := by
  induction t using childwise with
  | step t ih =>
      refine everywhere_iff.2 ⟨(refersToDual_recode getter invoker t).trans h.here, fun c hc => ?_⟩
      rw [children_recode] at hc
      obtain ⟨u, hu, rfl⟩ := List.mem_map.1 hc
      exact ih u hu (h.child hu)

end Tree

variable {E : Engine}

/-- Passes over duals, run by one engine. -/
theorem runAll_settled {t : Expr} (h : t.Settled) : ∀ passes : List DualPass,
    Pass.runAll E (passes.map .dual) t = pure t
  | [] => rfl
  | pass :: passes => by
      show pass.run E t >>= _ = _
      rw [h.run, pure_bind]
      exact runAll_settled h passes

/-- The default pipeline asks for nothing over a tree without references, and neither does its check. -/
theorem run_default_unreferenced {t : Expr} (h : t.referencesDuals = false) (verify : Bool) :
    (Pass.default verify).run E t = pure t := by
  show (Pass.runAll E (DualPass.all.map .dual) t >>= _) = _
  rw [runAll_settled (Tree.settled_of_unreferenced h), pure_bind, h, Bool.and_false]
  rfl

/-- **The pipeline gives a tree without references back, from every store and without a nested step. It does
so whatever the engine answers, and whatever code is put behind the members and methods of the tree.** -/
theorem rewriteDefault_unreferenced {e : Expr} (h : e.referencesDuals = false) :
    (∀ (host : Host) (n : Nat) (s : Store), rewriteDefault (machine host (n + 1)) e s = .ok e s) ∧
      (∀ (E : Engine) (verify : Bool), (Pass.default verify).run E e = pure e) ∧
      ∀ (getter : Member Getter → Getter) (invoker : Method Invoker → Invoker) (E : Engine) (verify : Bool),
        (Pass.default verify).run E (e.recode getter invoker) = pure (e.recode getter invoker) := by
  have hsettled := (Tree.inert_of_unreferenced h).settled
  refine ⟨fun host n s => runPasses_settled hsettled.1 hsettled.2 n s DualPass.all,
    fun E verify => run_default_unreferenced h verify, fun getter invoker E verify => ?_⟩
  refine run_default_unreferenced (Tree.anyNode_eq_false.2 ?_) verify
  exact Tree.everywhere_recode getter invoker (Tree.anyNode_eq_false.1 h)

namespace Accessed

/-- An integer parameter. -/
def x : Param := ⟨0, "x", .int⟩

/-- A static property whose accessor fails. -/
def limit : Member Getter :=
  { declaring := .nominal "P", name := "limit", ty := .int, kind := .property, isStatic := true
    getter := .computed ⟨0, 0, .host "fail" []⟩ }

/-- `x => x + P.limit`. -/
def shifted : Lam := ⟨[x], .operation .add (.param x) (.staticMember limit)⟩

end Accessed

open Accessed in
/-- A lambda that reads a property with a failing accessor is given back, also where the accessor is replaced
by a field. -/
theorem rewriteDefault_unreferenced_accessed :
    shifted.tree.referencesDuals = false ∧
      (Pass.default true).run .exhausted shifted.tree = pure shifted.tree ∧
      (Pass.default true).run .exhausted (shifted.tree.recode (fun _ => .field) fun m => m.invoker) =
        pure (shifted.tree.recode (fun _ => .field) fun m => m.invoker) := by
  have h : shifted.tree.referencesDuals = false :=
    Tree.anyNode_eq_false.2 <| Tree.everywhere_single rfl rfl <|
      Tree.everywhere_pair rfl rfl (Tree.everywhere_leaf rfl rfl) (Tree.everywhere_leaf rfl rfl)
  obtain ⟨-, hrun, hrecoded⟩ := rewriteDefault_unreferenced h
  exact ⟨h, hrun _ _, hrecoded _ _ _ _⟩

end DualForm
