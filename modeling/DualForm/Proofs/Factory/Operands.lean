import DualForm.Proofs.Factory.Capture
import DualForm.Proofs.Recurring

/-!
# Trees over one parameter

* `Tree.Over V formals p t` — a tree over host code that reads no parameter but `p` and none of the
  captured arguments of `formals`.

Principal results: `Over.follows` — evaluating such a tree depends on the parameter alone;
`tryEvaluate_eq_evaluate` — where a tree folds, folding is evaluation in any scope.
-/

namespace DualForm

variable {host : Host} {I : Store → Prop} {V : Vocabulary} {E : Engine} {σ ρ : Scope}
  {formals : List FormalParam} {p q : Param} {t : Expr} {v : Value}

/-- The parameter, where a value is taken. A parameter that is a dual is not read. -/
def Reads (p : Param) (b : Bool) (q : Param) : Prop := b = false ∧ q = p ∧ p.ty.wrapper? = none

namespace Tree

/-- A tree over host code that reads the parameter only, and none of the captured arguments. -/
def Over (V : Vocabulary) (formals : List FormalParam) (p : Param) (t : Expr) : Prop :=
  Term V (Apart formals) (Reads p) false t

/-- Every tree is the filling of itself by its own parameters. -/
theorem filled_self (t : Expr) : t.Filled (fun x u => u = .param x) t := by
  induction t using childwise with
  | step t ih =>
      by_cases ht : ∃ r, t = .param r
      · obtain ⟨r, rfl⟩ := ht
        rfl
      · exact (filled_node fun r hr => ht ⟨r, hr⟩).2 ⟨rfl, List.forall₂_same.2 ih⟩

namespace Over

theorem everywhere (h : t.Over V formals p) : t.Everywhere fun u =>
    (u = .param p ∧ p.ty.wrapper? = none) ∨
      (u.Apart formals ∧ (∀ r, u ≠ .param r) ∧ ∀ ps c, u ≠ .lambda ps c) :=
  (Term.everywhere h).imp fun _ hu => hu.imp_left fun ⟨_, _, hparam, hreads⟩ =>
    ⟨hparam.trans (congrArg _ hreads.2.1), hreads.2.2⟩

theorem unreferenced (h : t.Over V formals p) : t.Everywhere fun u => u.refersToDual = false := by
  refine h.everywhere.imp fun u hu => ?_
  rcases hu with ⟨rfl, hp⟩ | hu
  · simp [refersToDual, hp]
  · exact hu.1.1

theorem settled (h : t.Over V formals p) : t.Settled :=
  settled_of_unreferenced (anyNode_eq_false.2 h.unreferenced)

theorem lambdaless (h : t.Over V formals p) : t.Lambdaless := by
  refine h.everywhere.imp fun u hu ps c hc => ?_
  rcases hu with ⟨rfl, _⟩ | hu
  · cases hc
  · exact hu.2.2 ps c hc

theorem reads (h : t.Over V formals p) : t.Everywhere fun u => ∀ r, u = .param r → r = p := by
  refine h.everywhere.imp fun u hu r hr => ?_
  rcases hu with ⟨rfl, _⟩ | hu
  · exact (Tree.param.inj hr).symm
  · exact absurd hr (hu.2.1 r)

theorem unread (h : t.Over V formals p) (hq : q ≠ p) : t.Unread q :=
  h.reads.imp fun _ hu hread => hq (hu q hread)

theorem uncaptured (h : t.Over V formals p) {formal : FormalParam} (hformal : formal ∈ formals) :
    t.Everywhere fun u => ∀ target m, u = .member target m → ¬ formal.names m := by
  refine h.everywhere.imp fun u hu target m hm => ?_
  rcases hu with ⟨rfl, _⟩ | hu
  · cases hm
  · exact hu.1.2 target m hm formal hformal

/-- **Evaluating such a tree depends on the parameter alone.** -/
theorem follows (hV : V.Closed) (hhost : V.Respected host) (hcall : V.Callable) (hI : Stable I)
    (h : t.Over V formals p) (hv : p.ty.wrapper? = none → V.data v) (n : Nat) :
    Follows host I (Shared V) (evaluate (machine host n) [(p, v)] t) fun E => evaluate E [(p, v)] t := by
  refine (Term.follows hV hhost hcall hI h t.filled_self t.filled_self ?_).imp fun _ _ => alike_false.1
  rintro _ _ u w ⟨rfl, rfl, hp⟩ rfl rfl
  exact Follows.congr (evaluate_own ..) (fun E => evaluate_own ..) (Follows.pure (.data (hv hp)))

end Over

end Tree

/-! ## Trees that fold -/

theorem evaluate_of_folds (ht : t.folds = true) : evaluate E σ t = evaluate E ρ t := by
  induction t using Tree.nodewise with
  | literal | staticMember => rfl
  | member target m ih =>
      unfold evaluate
      rw [ih ht]
  | param | staticCall | call | binary | unary | lambda | invoke | conditional => cases ht

/-- Where a tree folds, folding is evaluation in any scope. -/
theorem tryEvaluate_eq_evaluate (ht : t.folds = true) (σ : Scope) :
    tryEvaluate E t = (do return some (← evaluate E σ t)) := by
  induction t using Tree.nodewise with
  | literal | staticMember => rfl
  | member target m ih =>
      unfold tryEvaluate evaluate
      rw [ih ht]
      simp
  | param | staticCall | call | binary | unary | lambda | invoke | conditional => cases ht

end DualForm
