import DualForm.Proofs.Tree.Preorder
import DualForm.Proofs.Tree.Scope
import DualForm.Rewriting.Pass
import Mathlib.Algebra.BigOperators.Ring.List
import Mathlib.Algebra.Ring.Nat

/-!
# What a substitution adds and takes away

Substitution replaces every read of a parameter, also below lambdas that declare it again. Such lambdas may declare
another parameter afterwards, but they stay lambdas. So each count of nodes that does not tell lambdas apart grows
by what is counted in the replacement, once for each read replaced, and shrinks by the reads that are gone.

Principal results: `Tree.count_substitute` — any such count after a substitution; `Tree.substitute_accounts` — the
number of nodes, the number of reads of each parameter, and the free parameters after it.
-/

namespace DualForm

namespace Tree

variable {ν γ ι : Type} {p q : Param} {a t : Tree ν γ ι} {P : Tree ν γ ι → Bool}

/-! ## Counts -/

theorem countParam_eq (p : Param) (t : Tree ν γ ι) : t.countParam p = t.count (reads p) :=
  walk_counting (reads p) t

theorem nodeCount_eq (t : Tree ν γ ι) : t.nodeCount = t.count fun _ => true :=
  walk_counting (fun _ => true) t

theorem nodeCount_pos (t : Tree ν γ ι) : 0 < t.nodeCount := by
  rw [nodeCount_eq, count_eq, if_pos rfl]
  omega

theorem count_sum (P : Tree ν γ ι → Bool) (t : Tree ν γ ι) :
    t.count P = (if P t then 1 else 0) + (t.children.map (count P)).sum := count_eq P t

theorem count_param (P : Tree ν γ ι → Bool) (r : Param) :
    (.param r : Tree ν γ ι).count P = if P (.param r) then 1 else 0 := count_sum P (.param r)

theorem count_lambda (P : Tree ν γ ι → Bool) (ps : List Param) (b : Tree ν γ ι) :
    (.lambda ps b : Tree ν γ ι).count P = (if P (.lambda ps b) then 1 else 0) + b.count P := count_sum P (.lambda ps b)

theorem count_never (t : Tree ν γ ι) : t.count (fun _ => false) = 0 := by
  induction t using childwise with
  | step t ih =>
      rw [count_sum, if_neg Bool.false_ne_true, Nat.zero_add, List.map_congr_left ih]
      refine List.sum_eq_zero fun n hn => ?_
      obtain ⟨c, -, rfl⟩ := List.mem_map.1 hn
      rfl

/-! ## Counts after a substitution -/

theorem reads_shallow (q : Param) : Shallow fun u : Tree ν γ ι => u.reads q = true := by
  refine ⟨fun {t u} hhead ht => ?_, fun _ _ h => h⟩
  cases t with
  | param r =>
      cases u with
      | param s => cases hhead; exact ht
      | _ => cases hhead
  | _ => cases ht

theorem reads_other (hparam : ∀ r, t ≠ .param r) : t.reads p = false := by
  cases t with
  | param r => exact absurd rfl (hparam r)
  | _ => rfl

/-- **What is counted after a substitution:** the replacement once for each read replaced, and all else as before,
apart from these reads. -/
theorem count_substitute (hP : Shallow fun u => P u = true) (t : Tree ν γ ι) :
    (substitute p a t).count P + t.count (fun u => u.reads p && P u) =
      t.count P + t.count (reads p) * a.count P := by
  induction t using binderwise with
  | param r =>
      rw [count_param, count_param, count_param]
      unfold substitute
      by_cases hr : r = p
      · simp [reads, hr, Nat.add_comm]
      · simp [reads, hr, count_param]
  | lambda ps b ih =>
      have hsame : P (.lambda (redeclare p a ps) (substitute p a b)) = P (.lambda ps b) :=
        Bool.eq_iff_iff.2 ⟨hP.lambda _ _, hP.lambda _ _⟩
      have hread : (.lambda ps b : Tree ν γ ι).reads p = false := rfl
      rw [substitute_lambda, count_lambda, count_lambda, count_lambda, count_lambda, hsame, hread]
      simp only [Bool.false_and, Bool.false_eq_true, if_false, Nat.zero_add]
      omega
  | other t hparam hlambda ih =>
      have hhead := substitute_head (q := p) (a := a) hparam hlambda
      have hsame : P (substitute p a t) = P t := Bool.eq_iff_iff.2 ⟨hP.head hhead, hP.head hhead.symm⟩
      have hsum : (t.children.map fun c => (substitute p a c).count P).sum +
          (t.children.map (count fun u => u.reads p && P u)).sum =
            (t.children.map (count P)).sum + (t.children.map (count (reads p))).sum * a.count P := by
        have hcopies : (t.children.map fun c => c.count (reads p) * a.count P).sum =
            (t.children.map (count (reads p))).sum * a.count P := List.sum_map_mul_right ..
        rw [← hcopies, ← List.sum_map_add, ← List.sum_map_add, List.map_congr_left ih]
      rw [count_sum, count_sum, count_sum P t, count_sum (reads p) t, substitute_children hparam, List.map_map, hsame,
        reads_other hparam]
      simp only [Bool.false_and, Bool.false_eq_true, if_false, Nat.zero_add, Function.comp_def]
      omega

theorem nodeCount_substitute (p : Param) (a t : Tree ν γ ι) :
    (substitute p a t).nodeCount + t.countParam p = t.nodeCount + t.countParam p * a.nodeCount := by
  have h := count_substitute (p := p) (a := a) (P := fun _ => true) ⟨fun _ _ => rfl, fun _ _ _ => rfl⟩ t
  simpa only [nodeCount_eq, countParam_eq, Bool.and_true] using h

theorem countParam_substitute_other (h : q ≠ p) (a t : Tree ν γ ι) :
    (substitute p a t).countParam q = t.countParam q + t.countParam p * a.countParam q := by
  have hcount := count_substitute (p := p) (a := a) (reads_shallow q) t
  have hnever : (fun u : Tree ν γ ι => u.reads p && u.reads q) = fun _ => false := by
    funext u
    cases u with
    | param r =>
        by_cases hr : r = p
        · simp [reads, hr, h.symm]
        · simp [reads, hr]
    | _ => rfl
  rw [hnever, count_never] at hcount
  simpa only [countParam_eq, Nat.add_zero] using hcount

theorem countParam_substitute_self (p : Param) (a t : Tree ν γ ι) :
    (substitute p a t).countParam p = t.countParam p * a.countParam p := by
  have hcount := count_substitute (p := p) (a := a) (reads_shallow p) t
  have hself : (fun u : Tree ν γ ι => u.reads p && u.reads p) = reads p := funext fun u => Bool.and_self _
  rw [hself] at hcount
  rw [countParam_eq, countParam_eq, countParam_eq]
  omega

/-! ## Free parameters after a substitution -/

/-- Free parameters come from the replacement, or were free before. -/
theorem freeParams_substitute (p : Param) (a t : Tree ν γ ι) :
    (substitute p a t).freeParams ⊆ a.freeParams ++ t.freeParams.filter (· ≠ p) := by
  have ht : t.Scoped t.freeParams := freeParams_subset_iff.1 (List.Subset.refl _)
  have ha : a.Scoped (a.freeParams ++ t.freeParams.filter (· ≠ p)) :=
    freeParams_subset_iff.1 (List.subset_append_left ..)
  refine freeParams_subset_iff.2 (ht.substitute ha fun r hr hne => ?_)
  exact List.mem_append_right _ (List.mem_filter.2 ⟨hr, decide_eq_true hne⟩)

/-! ## Substitution as a pass -/

/-- **Substitution loses and duplicates nothing.** Replacing a parameter succeeds, wherever it is read and declared.
Let it be read `k` times. Each read is one node before, and as many as the replacement has afterwards. Other parameters
are read as often as before, and once more for each of their reads in each copy of the replacement; the parameter
itself is read in these copies only. What is free afterwards is free in the replacement, or was free before and is
not the parameter. -/
theorem substitute_accounts (E : Engine) (p : Param) (a t : Expr) :
    ∃ u, (Pass.substitute p a).run E t = pure u ∧
      u.nodeCount = t.nodeCount + t.countParam p * (a.nodeCount - 1) ∧
      (∀ q, q ≠ p → u.countParam q = t.countParam q + t.countParam p * a.countParam q) ∧
      u.countParam p = t.countParam p * a.countParam p ∧
      ∀ r ∈ u.freeParams, r ∈ a.freeParams ∨ (r ≠ p ∧ r ∈ t.freeParams) := by
  refine ⟨substitute p a t, rfl, ?_, fun q hq => countParam_substitute_other hq a t,
    countParam_substitute_self p a t, fun r hr => ?_⟩
  · have hnodes := nodeCount_substitute p a t
    have hpos : t.countParam p ≤ t.countParam p * a.nodeCount := Nat.le_mul_of_pos_right _ (nodeCount_pos a)
    rw [Nat.mul_sub_one]
    omega
  · refine (List.mem_append.1 (freeParams_substitute p a t hr)).imp_right fun hfree => ?_
    obtain ⟨hmem, hne⟩ := List.mem_filter.1 hfree
    exact ⟨of_decide_eq_true hne, hmem⟩

namespace Inserted

def x : Param := ⟨0, "x", .int⟩

def y : Param := ⟨1, "y", .int⟩

def z : Param := ⟨2, "z", .int⟩

/-- `x + (x => x + z)(x)` -/
def body : Expr :=
  .operation .add (.param x) (.invoke (.lambda [x] (.operation .add (.param x) (.param z))) [.param x])

/-- `y + x` -/
def sum : Expr := .operation .add (.param y) (.param x)

theorem body_reads : body.countParam x = 3 ∧ body.countParam z = 1 ∧ body.nodeCount = 8 := by
  rw [countParam_eq, countParam_eq, nodeCount_eq]
  decide

theorem sum_reads : sum.countParam x = 1 ∧ sum.countParam z = 0 ∧ sum.nodeCount = 3 := by
  rw [countParam_eq, countParam_eq, nodeCount_eq]
  decide

/-- Three reads are replaced, one of them below a lambda that declares the parameter again, by a sum that reads the
parameter itself. -/
theorem substitute_accounts_shadowed :
    z ≠ x ∧ ∃ u, (Pass.substitute x sum).run .exhausted body = pure u ∧
      u.nodeCount = 14 ∧ u.countParam z = 1 ∧ u.countParam x = 3 ∧
      ∀ r ∈ u.freeParams, r ∈ [y, x] ∨ (r ≠ x ∧ r ∈ [x, z]) := by
  have hne : z ≠ x := by decide
  obtain ⟨hx, hz, hnodes⟩ := body_reads
  obtain ⟨hx', hz', hnodes'⟩ := sum_reads
  obtain ⟨u, hrun, hcount, hother, hself, hfree⟩ := substitute_accounts .exhausted x sum body
  refine ⟨hne, u, hrun, ?_, ?_, ?_, hfree⟩
  · rw [hcount, hx, hnodes, hnodes']
  · rw [hother z hne, hx, hz, hz']
  · rw [hself, hx, hx']

end Inserted

end Tree

end DualForm
