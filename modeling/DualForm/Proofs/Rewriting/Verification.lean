import DualForm.Proofs.Outcome
import DualForm.Proofs.Tree.Nodes
import DualForm.Rewriting.Pass

/-!
# The final check of a pipeline

The check (`Tree.referencesDuals`) reads the types stored in each node. The static type of a node
(`Tree.ty`) is stored in the node, or computed from other fields or from subtrees.

* `Tree.isUnseen` — an operator through a method, a unary operation or an application whose result is of a
  dual's or a factory's type: of these nodes the check reads the declaring type of the method at most.
* `Tree.typedBy` — the node below which gives an arithmetic operation or a choice its type.

Principal results: `Tree.wrapper_typedBy`, `Tree.isUnseen_typedBy` — a node is of the type of the node that gives
it, and what the check does not find there it does not see; `Tree.wrapper_of_unreferenced` — a tree that passes
the check has a node of a dual's type exactly where one is unseen; `Pass.run_verified_ok`,
`Pass.run_verified_error` — a pipeline with the check returns what its passes return if nothing is found, and
fails otherwise; `verification_unseen` — all of it.
-/

namespace DualForm

namespace Tree

/-- The node has a dual's or a factory's type that the check does not read. -/
def isUnseen : Expr → Bool
  | .binary _ _ _ (some m) => m.result.wrapper?.isSome
  | .unary _ _ _ ty => ty.wrapper?.isSome
  | .invoke callee args => (invoke callee args).ty.wrapper?.isSome
  | _ => false

/-- The node that gives a tree its type: arithmetic has the type of its left operand, and a choice that of
its first branch, up to types of numbers. -/
def typedBy : Expr → Expr
  | .binary op lhs rhs none => if op.isPredicate then .binary op lhs rhs none else typedBy lhs
  | .conditional _ ifTrue _ => typedBy ifTrue
  | t => t

theorem wrapper_arithmeticTy (lhs rhs : Ty) : (arithmeticTy lhs rhs).wrapper? = lhs.wrapper? := by
  unfold arithmeticTy
  split <;> rfl

/-- A tree denotes the dual or factory that the node which gives it its type denotes. -/
theorem wrapper_typedBy (t : Expr) : t.ty.wrapper? = t.typedBy.ty.wrapper? := by
  fun_induction typedBy t with
  | case1 => rfl
  | case2 op lhs rhs hop ih =>
      rw [← ih, ← wrapper_arithmeticTy lhs.ty rhs.ty]
      simp only [ty, if_neg hop]
  | case3 test ifTrue ifFalse ih => exact ih
  | case4 => rfl

/-- What every node satisfies, every node below every node satisfies. -/
theorem Everywhere.everywhere {p : Expr → Prop} {t : Expr} (h : t.Everywhere p) :
    t.Everywhere fun u => u.Everywhere p := by
  induction t using childwise with
  | step t ih => exact everywhere_iff.2 ⟨h, fun c hc => ih c hc (h.child hc)⟩

/-- What every node satisfies, the node that gives the type satisfies. -/
theorem Everywhere.typedBy {p : Expr → Prop} {t : Expr} (h : t.Everywhere p) : t.typedBy.Everywhere p := by
  fun_induction Tree.typedBy t with
  | case1 | case4 => exact h
  | case2 op lhs rhs hop ih => exact ih (h.child (List.mem_cons_self ..))
  | case3 test ifTrue ifFalse ih => exact ih (h.child (List.mem_cons_of_mem _ (List.mem_cons_self ..)))

/-- The node that gives a tree its type denotes a dual or a factory exactly if it is unseen, where it does
not refer to one. -/
theorem isUnseen_typedBy {t : Expr} (h : t.typedBy.refersToDual = false) :
    t.typedBy.ty.wrapper?.isSome = t.typedBy.isUnseen := by
  fun_induction Tree.typedBy t with
  | case1 op lhs rhs hop => simp only [ty, if_pos hop, isUnseen]; rfl
  | case2 op lhs rhs hop ih => exact ih h
  | case3 test ifTrue ifFalse ih => exact ih h
  | case4 t hbinary hconditional =>
      cases t with
      | literal | param => exact h
      | staticMember | member => exact (Bool.or_eq_false_iff.1 h).1
      | staticCall | call => exact (Bool.or_eq_false_iff.1 h).1
      | binary op lhs rhs via =>
          cases via with
          | none => exact (hbinary _ _ _ rfl).elim
          | some m => rfl
      | unary | lambda | invoke => rfl
      | conditional => exact (hconditional _ _ _ rfl).elim

theorem typedBy_of_isUnseen {t : Expr} (h : t.isUnseen = true) : t.typedBy = t := by
  fun_cases Tree.typedBy t with
  | case1 | case4 => rfl
  | case2 | case3 => cases h

/-- **Where the check finds nothing, a node is of a dual's or a factory's type exactly if the node that gives
it its type is unseen, and no node is exactly if none is unseen.** -/
theorem wrapper_of_unreferenced {e : Expr} (h : e.referencesDuals = false) :
    (e.Everywhere fun u => u.ty.wrapper?.isSome = u.typedBy.isUnseen) ∧
      ((e.Everywhere fun u => u.ty.wrapper? = none) ↔ e.Everywhere fun u => u.isUnseen = false) := by
  have hgiven : e.Everywhere fun u => u.ty.wrapper?.isSome = u.typedBy.isUnseen :=
    (anyNode_eq_false.1 h).everywhere.imp fun u hu => by
      rw [wrapper_typedBy, isUnseen_typedBy hu.typedBy.here]
  refine ⟨hgiven, fun hnone => ?_, fun hseen => ?_⟩
  · refine (hgiven.and hnone).imp fun u ⟨hu, hwrapper⟩ => ?_
    rw [hwrapper] at hu
    by_contra hunseen
    rw [Bool.not_eq_false] at hunseen
    rw [typedBy_of_isUnseen hunseen, hunseen] at hu
    cases hu
  · refine (hgiven.and hseen.everywhere).imp fun u ⟨hu, hbelow⟩ => ?_
    rw [hbelow.typedBy.here] at hu
    simpa using hu

end Tree

variable {E : Engine} {passes : List Pass}

/-- A pipeline with the check returns what its passes return if the check finds nothing. -/
theorem Pass.run_verified_ok {t r : Expr} {s u : Store} :
    (Pass.pipeline passes true).run E t s = .ok r u ↔
      Pass.runAll E passes t s = .ok r u ∧ r.referencesDuals = false := by
  unfold Pass.run
  rw [Act.bind_eq_ok]
  constructor
  · rintro ⟨r', u', hrun, h⟩
    cases href : r'.referencesDuals with
    | true => rw [href] at h; cases h
    | false =>
        rw [href] at h
        obtain ⟨rfl, rfl⟩ := Act.pure_eq_ok.1 h
        exact ⟨hrun, href⟩
  · rintro ⟨hrun, href⟩
    refine ⟨r, u, hrun, ?_⟩
    rw [href]
    rfl

/-- It fails, and shows the tree, if the check finds something. -/
theorem Pass.run_verified_error {t r : Expr} {s u : Store} (h : Pass.runAll E passes t s = .ok r u)
    (href : r.referencesDuals = true) :
    (Pass.pipeline passes true).run E t s = .error (.failed (.residualReference r.text)) u := by
  unfold Pass.run
  rw [Act.bind_ok h, href]
  rfl

/-- **The check is sound up to the nodes it does not see.** If it finds nothing, a tree has a node of a dual's
or a factory's type exactly if it has an unseen one, and the type of every node is told by the unseen ones. A
pipeline with the check returns a result of its passes if nothing is found there, and otherwise fails and
shows it. -/
theorem verification_unseen (e : Expr) :
    (e.referencesDuals = false →
      (e.Everywhere fun u => u.ty.wrapper?.isSome = u.typedBy.isUnseen) ∧
      ((e.Everywhere fun u => u.ty.wrapper? = none) ↔ e.Everywhere fun u => u.isUnseen = false)) ∧
    ∀ (E : Engine) (passes : List Pass) (t : Expr) (s u : Store),
      ((Pass.pipeline passes true).run E t s = .ok e u ↔
        Pass.runAll E passes t s = .ok e u ∧ e.referencesDuals = false) ∧
      (Pass.runAll E passes t s = .ok e u → e.referencesDuals = true →
        (Pass.pipeline passes true).run E t s = .error (.failed (.residualReference e.text)) u) :=
  ⟨Tree.wrapper_of_unreferenced, fun _ _ _ _ _ => ⟨Pass.run_verified_ok, Pass.run_verified_error⟩⟩

namespace Unseen

/-- Null, converted to a projection without a method. -/
def converted : Expr := .unary .convert (.literal .null .any) none (.projection .int .int)

theorem unreferenced : converted.referencesDuals = false :=
  Tree.anyNode_eq_false.2 (Tree.everywhere_single rfl rfl (Tree.everywhere_leaf rfl rfl))

end Unseen

open Unseen in
/-- A conversion to a dual's type passes the default pipeline and its check. -/
theorem verification_unseen_converted :
    converted.referencesDuals = false ∧
      (¬ converted.Everywhere fun u => u.ty.wrapper? = none) ∧
      (Pass.default true).run .exhausted converted .initial = .ok converted .initial := by
  obtain ⟨htypes, hrun⟩ := verification_unseen converted
  refine ⟨unreferenced, fun h => ?_, (hrun _ _ _ _ _).1.2 ⟨rfl, unreferenced⟩⟩
  have hseen := ((htypes unreferenced).2.1 h).here
  cases hseen

end DualForm
