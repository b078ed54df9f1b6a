import DualForm.Proofs.Rewriting.Visit
import Mathlib.Data.List.Induction

/-!
# Folding is evaluation on the chains of reads

* `Chain` — a literal or a read of a static member, with the members read from there in turn;
  `Chain.tree` is the tree, `Chain.read` its reads in order.
* `Tree.climb`, `Chain.replay` — folding as one loop: climb from the last read to the root and
  collect the members, then read them with a running value that a static root starts without.

Principal results: `climb_eq_some` — the climb ends in a value exactly for chains;
`tryEvaluate_climb` — folding is the climb and the replay; `tryEvaluate_exactly` — folding a chain
is evaluating it, in every scope and for every engine, and all other trees run nothing.
-/

namespace DualForm

variable {E : Engine}

/-- Where a chain of reads starts. -/
inductive Chain.Root where
  | literal (v : Value) (ty : Ty)
  | static (m : Member Getter)

/-- The tree of a root. -/
def Chain.Root.tree : Chain.Root → Expr
  | .literal v ty => .literal v ty
  | .static m => .staticMember m

/-- A root and the members read from it, the first read first. -/
structure Chain where
  root : Chain.Root
  reads : List (Member Getter)

namespace Chain

/-- The tree of a chain. -/
def tree (c : Chain) : Expr := c.reads.foldl Tree.member c.root.tree

/-- The chain with one more read at its end. -/
def snoc (c : Chain) (m : Member Getter) : Chain := ⟨c.root, c.reads ++ [m]⟩

@[simp] theorem tree_snoc (c : Chain) (m : Member Getter) : (c.snoc m).tree = .member c.tree m := by
  simp [tree, snoc]

/-- The value a chain starts with, and all members it reads. A static root is a read itself. -/
def steps : Chain → Option Value × List (Member Getter)
  | ⟨.literal v _, reads⟩ => (some v, reads)
  | ⟨.static m, reads⟩ => (none, m :: reads)

/-- Reads a member of the running value. -/
def next (E : Engine) (running : Option Value) (m : Member Getter) : Act (Option Value) :=
  some <$> m.read E running

/-- All reads of a chain, from the root on. -/
def replay (E : Engine) (c : Chain) : Act (Option Value) :=
  c.steps.2.foldlM (next E) c.steps.1

theorem replay_snoc (c : Chain) (m : Member Getter) :
    (c.snoc m).replay E = c.replay E >>= fun v => next E v m := by
  obtain ⟨root, reads⟩ := c
  cases root <;> simp [replay, steps, snoc]

/-- Every chain is a root or a shorter chain with one more read. -/
theorem induction {p : Chain → Prop} (root : ∀ r, p ⟨r, []⟩) (snoc : ∀ c m, p c → p (c.snoc m))
    (c : Chain) : p c := by
  obtain ⟨r, reads⟩ := c
  induction reads using List.reverseRecOn with
  | nil => exact root r
  | append_singleton reads m ih => exact snoc ⟨r, reads⟩ m ih

end Chain

/-! ## The climb -/

/-- Climbs from a tree to the root of its chain; `read` are the members met so far. -/
def Tree.climb : Expr → List (Member Getter) → Option Chain
  | .literal v ty, read => some ⟨.literal v ty, read⟩
  | .staticMember m, read => some ⟨.static m, read⟩
  | .member target m, read => climb target (m :: read)
  | _, _ => none

theorem climb_tree (c : Chain) (read : List (Member Getter)) :
    c.tree.climb read = some ⟨c.root, c.reads ++ read⟩ := by
  induction c using Chain.induction generalizing read with
  | root r => cases r <;> rfl
  | snoc c m ih =>
      rw [Chain.tree_snoc]
      unfold Tree.climb
      rw [ih]
      simp [Chain.snoc]

theorem tree_of_folds {t : Expr} (ht : t.folds = true) : ∃ c : Chain, t = c.tree := by
  induction t using Tree.nodewise with
  | literal v ty => exact ⟨⟨.literal v ty, []⟩, rfl⟩
  | staticMember m => exact ⟨⟨.static m, []⟩, rfl⟩
  | member target m ih =>
      obtain ⟨c, rfl⟩ := ih ht
      exact ⟨c.snoc m, (c.tree_snoc m).symm⟩
  | param | staticCall | call | binary | unary | lambda | invoke | conditional => cases ht

theorem climb_of_not_folds {t : Expr} (ht : t.folds = false) (read : List (Member Getter)) :
    t.climb read = none := by
  induction t using Tree.nodewise generalizing read with
  | literal | staticMember => cases ht
  | member target m ih => exact ih ht (m :: read)
  | param | staticCall | call | binary | unary | lambda | invoke | conditional => rfl

/-- **The climb reaches a value exactly from chains.** -/
theorem climb_eq_some {t : Expr} {c : Chain} : t.climb [] = some c ↔ t = c.tree := by
  constructor
  · intro h
    cases hfolds : t.folds with
    | false => rw [climb_of_not_folds hfolds] at h; cases h
    | true =>
        obtain ⟨d, rfl⟩ := tree_of_folds hfolds
        rw [climb_tree, List.append_nil] at h
        cases h
        rfl
  · rintro rfl
    rw [climb_tree, List.append_nil]

/-! ## The replay -/

/-- A chain folds to the value it has in any scope. -/
theorem tryEvaluate_chain (scope : Scope) (c : Chain) :
    tryEvaluate E c.tree = some <$> evaluate E scope c.tree := by
  induction c using Chain.induction with
  | root r => cases r <;> simp [Chain.tree, Chain.Root.tree, tryEvaluate, evaluate]
  | snoc c m ih =>
      rw [Chain.tree_snoc, evaluate_member]
      unfold tryEvaluate
      rw [ih]
      simp

/-- The loop carries the value of the chain read so far. -/
theorem replay_chain (scope : Scope) (c : Chain) :
    c.replay E = some <$> evaluate E scope c.tree := by
  induction c using Chain.induction with
  | root r =>
      cases r <;>
        simp [Chain.tree, Chain.Root.tree, Chain.replay, Chain.steps, Chain.next, evaluate]
  | snoc c m ih =>
      rw [Chain.replay_snoc, Chain.tree_snoc, evaluate_member, ih]
      simp [Chain.next]

/-- Folding is one loop: the climb to the root, then the reads from the root on. -/
theorem tryEvaluate_climb (t : Expr) :
    tryEvaluate E t = match t.climb [] with
      | some c => c.replay E
      | none => pure none := by
  cases hfolds : t.folds with
  | false => rw [climb_of_not_folds hfolds, tryEvaluate_of_not_folds hfolds]
  | true =>
      obtain ⟨c, rfl⟩ := tree_of_folds hfolds
      rw [climb_eq_some.2 rfl, tryEvaluate_chain []]
      exact (replay_chain [] c).symm

/-- **Folding is exactly evaluation on its domain.** A literal, or a chain of reads of any length
that starts at a literal or at a static member, folds to what it evaluates to in every scope: the
two are one action, so they give the same value or the same error and run the same getters in the
same order — those of the loop that reads the members of the chain from its root on. All other trees
have no value and run nothing. Both hold for every engine, so whatever the getters do. -/
theorem tryEvaluate_exactly (E : Engine) :
    (∀ (c : Chain) (scope : Scope),
      tryEvaluate E c.tree = some <$> evaluate E scope c.tree ∧
        tryEvaluate E c.tree = c.replay E) ∧
    ∀ t : Expr, (∀ c : Chain, t ≠ c.tree) → tryEvaluate E t = pure none := by
  refine ⟨fun c scope => ⟨tryEvaluate_chain scope c, ?_⟩, fun t ht => ?_⟩
  · rw [tryEvaluate_climb, climb_eq_some.2 rfl]
  · have hclimb : t.climb [] = none :=
      Option.eq_none_iff_forall_ne_some.2 fun c hc => ht c (climb_eq_some.1 hc)
    rw [tryEvaluate_climb, hclimb]

namespace Unrooted

def x : Param := ⟨0, "x", .named "Holder"⟩

def field (name : String) (ty : Ty) : Member Getter :=
  { declaring := .nominal "Holder", name := name, ty := ty, kind := .field, isStatic := false
    getter := .field }

/-- Two reads that start at a parameter: `x.inner.a`. -/
def tree : Expr := .member (.member (.param x) (field "inner" (.named "Holder"))) (field "a" .str)

theorem tree_ne (c : Chain) : tree ≠ c.tree := fun h => by cases climb_eq_some.2 h

end Unrooted

/-- Reads of a parameter are no chain, and run nothing. -/
theorem tryEvaluate_exactly_unrooted :
    (∀ c : Chain, Unrooted.tree ≠ c.tree) ∧
      tryEvaluate Engine.exhausted Unrooted.tree = pure none :=
  ⟨Unrooted.tree_ne, (tryEvaluate_exactly Engine.exhausted).2 _ Unrooted.tree_ne⟩

end DualForm
