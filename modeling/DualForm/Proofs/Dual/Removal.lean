import DualForm.Host.Registry
import DualForm.Proofs.Rewriting.Removal
import DualForm.Rewriting.Pass

/-!
# Everything that folds is inlined

* `Holds form D s` — the duals with `D` have published their tree forms.

Principal results: `holds_forms` — published tree forms are handed out; `rewriteDefault_removes` — the
pipeline removes all references of trees in which duals occur in the ways it knows, and the final
check lets the result pass.
-/

namespace DualForm

variable {form : Dual → Lam} {D : Dual → Prop} {host : Host} {I : Store → Prop} {b : Bool} {e : Expr}

/-- The duals with `D` have published their tree forms. -/
def Holds (form : Dual → Lam) (D : Dual → Prop) (s : Store) : Prop :=
  ∀ d, D d → TreePublished d.id (form d) s

/-- A published tree form is handed out. -/
theorem tree_published {d : Dual} {l : Lam} {s : Store} (h : TreePublished d.id l s) (n : Nat) :
    (machine host (n + 1)).tree d s = .ok l s := publishOnce_found h

/-- Duals that have published their tree forms hand them out. -/
theorem holds_forms (hsingle : ∀ d, D d → ∃ p, (form d).params = [p])
    (hunreferenced : ∀ d, D d → (form d).tree.referencesDuals = false) :
    Forms host (Holds form D) form D := by
  refine ⟨fun d hd N => ⟨fun n _ => ?_, fun _ => ⟨form d, rfl, fun s hs => ?_⟩⟩, hsingle, hunreferenced⟩
  · cases n with
    | zero => exact Act.Delivers.exhausted
    | succ n =>
        have hrun : ∀ s, Holds form D s → (machine host (n + 1)).tree d s = .ok (form d) s :=
          fun s hs => tree_published (hs d hd) n
        refine ⟨⟨⟨fun s hs => ?_⟩, fun s l t hs h => ?_⟩, fun s e t hs h => ?_⟩
        · rw [Act.final_ok (hrun s hs)]; exact hs
        · rw [hrun s hs] at h; cases h; rfl
        · rw [hrun s hs] at h; cases h
  · exact ⟨s, ⟨1, fun n hn => by
      obtain ⟨m, rfl⟩ : ∃ m, n = m + 1 := ⟨n - 1, by omega⟩
      exact tree_published (hs d hd) m⟩, hs⟩

/-! ## The final check -/

theorem runAll_dual (n : Nat) : ∀ (passes : List DualPass) (t : Expr),
    Pass.runAll (machine host n) (passes.map .dual) t = runPasses (machine host (n + 1)) passes t
  | [], _ => rfl
  | pass :: passes, t => by
      show (Pass.run (machine host n) (.dual pass) t >>= Pass.runAll (machine host n) _) = _
      rw [runPasses_cons, funext fun u => runAll_dual n passes u]
      rfl

/-- The pipeline that checks its result. -/
theorem run_default (n : Nat) (t : Expr) : (Pass.default true).run (machine host n) t = (do
    let u ← rewriteDefault (machine host (n + 1)) t
    if u.referencesDuals then Act.fail (.residualReference u.text) else return u) := by
  show (Pass.runAll (machine host n) (DualPass.all.map .dual) t >>= _) = _
  rw [runAll_dual]
  rfl

/-- **The pipeline leaves no reference behind where every dual occurs in a way it knows.** With any
number of nested steps it runs out of them or returns a tree without references, which the final
check lets pass; it never fails. And it does return if all evaluations on reads of evaluators are
guarded, the same tree from every store. -/
theorem rewriteDefault_removes (hforms : Forms host I form D) {guarded : Prop}
    (he : Refers (Denotes form D) guarded b e) :
    (∀ n s, I s → (∃ t, rewriteDefault (machine host (n + 1)) e s = .error .exhausted t) ∨
      ∃ u t, rewriteDefault (machine host (n + 1)) e s = .ok u t ∧ I t ∧ u.referencesDuals = false ∧
        (Pass.default true).run (machine host n) e s = .ok u t) ∧
    (guarded → ∃ u, u.referencesDuals = false ∧ Settles host I (fun E => rewriteDefault E e) u ∧
      Settles host I (fun E => (Pass.default true).run E e) u) := by
  have hchecked : ∀ {n s u t}, rewriteDefault (machine host (n + 1)) e s = .ok u t →
      u.referencesDuals = false → (Pass.default true).run (machine host n) e s = .ok u t := by
    intro n s u t h hu
    rw [run_default, Act.bind_ok h, hu]
    rfl
  constructor
  · intro n s hs
    have hdelivers := (rewriteDefault_completes hforms he (n + 1)).delivers (n + 1) (Nat.le_refl _)
    cases h : rewriteDefault (machine host (n + 1)) e s with
    | error stop t =>
        obtain rfl := hdelivers.unfailing s stop t hs h
        exact .inl ⟨t, rfl⟩
    | ok u t =>
        have hu := hdelivers.ensures.result s u t hs h
        exact .inr ⟨u, t, rfl, hdelivers.ensures.keeps.ok h hs, hu, hchecked h hu⟩
  · intro hguarded
    obtain ⟨u, hu, hsettles⟩ := (rewriteDefault_completes hforms he 0).settles hguarded
    refine ⟨u, hu, hsettles, fun s hs => ?_⟩
    obtain ⟨t, ⟨N, hN⟩, ht⟩ := hsettles s hs
    exact ⟨t, ⟨N, fun n hn => hchecked (hN (n + 1) (by omega)) hu⟩, ht⟩

/-! ## A tree in which everything is inlined -/

/-- The lambda a dual was made from, if any. -/
def Dual.raw (d : Dual) : Lam :=
  match d.origin with
  | .lambda raw => raw
  | .compiled c => c.expression.getD default
  | _ => default

/-- A store in which duals have published the lambdas they were made from. -/
def Store.publishing : List Dual → Store
  | [] => .initial
  | d :: ds => (Slot.tree d).write d.raw (publishing ds)

/-- Duals with different identities have all published. -/
theorem holds_publishing : ∀ {ds : List Dual}, (ds.map Dual.id).Nodup →
    Holds Dual.raw (· ∈ ds) (.publishing ds)
  | [], _, d, hd => by cases hd
  | e :: ds, hdistinct, d, hd => by
      obtain ⟨hnew, hdistinct⟩ := List.nodup_cons.1 hdistinct
      unfold TreePublished Store.publishing
      rw [trees_write]
      by_cases hid : e.id = d.id
      · rw [if_pos hid]
        rcases List.mem_cons.1 hd with rfl | hd
        · rfl
        · exact absurd (List.mem_map.2 ⟨d, hd, hid.symm⟩) hnew
      · rw [if_neg hid]
        rcases List.mem_cons.1 hd with rfl | hd
        · exact absurd rfl hid
        · exact holds_publishing hdistinct d hd

namespace Removed

/-- `y => y + 1`, as a projection. -/
def successor : Dual :=
  ⟨0, .projection, .int, .int,
    .lambda ⟨[⟨0, "y", .int⟩], .operation .add (.param ⟨0, "y", .int⟩) (Tree.constant (.int 1))⟩⟩

/-- `z => z > 0`, as a specification. -/
def positive : Dual :=
  ⟨1, .specification, .int, .bool,
    .lambda ⟨[⟨1, "z", .int⟩], .operation .greater (.param ⟨1, "z", .int⟩) (Tree.constant (.int 0))⟩⟩

/-- `f => f(3)`, as a projection. -/
def atThree : Dual :=
  ⟨2, .projection, .func [.int] .int, .int,
    .lambda ⟨[⟨2, "f", .func [.int] .int⟩],
      .invoke (.param ⟨2, "f", .func [.int] .int⟩) [Tree.constant (.int 3)]⟩⟩

def duals : List Dual := [successor, positive, atThree]

/-- `positive & !(int → bool)positive`. -/
def combination : Expr :=
  .binary .and positive.literal
    (.unary .not positive.converted (some (Specification.negationMethod .int)) (.specification .int))
    (some (Specification.conjunctionMethod .int))

/-- `combination.is_satisfied_by(successor.evaluate(3)) ? atThree.evaluate(successor.evaluate) :
((int → int)successor)(3)`. -/
def tree : Expr :=
  .conditional
    (Tree.evaluation .specification .int .bool true combination
      (Tree.evaluation .projection .int .int false successor.literal (Tree.constant (.int 3))))
    (Tree.evaluation .projection (.func [.int] .int) .int false atThree.literal successor.functionRead)
    (.invoke successor.converted [Tree.constant (.int 3)])

theorem constant_free (v : Int64) : Calls (fun _ => False) (Tree.constant (.int v)) :=
  .plain rfl fun c hc => by cases hc

theorem unreferenced : ∀ d ∈ duals, (Dual.raw d).tree.referencesDuals = false := by
  intro d hd
  refine Calls.unreferenced (Calls.lambda_iff.2 ?_)
  simp only [duals, List.mem_cons, List.not_mem_nil, or_false] at hd
  rcases hd with rfl | rfl | rfl
  · exact ⟨by simp [Dual.raw, successor, Ty.wrapper?],
      .operation (Calls.param_iff.2 rfl) (constant_free 1)⟩
  · exact ⟨by simp [Dual.raw, positive, Ty.wrapper?],
      .operation (Calls.param_iff.2 rfl) (constant_free 0)⟩
  · exact ⟨by simp [Dual.raw, atThree, Ty.wrapper?], .plain rfl <| List.forall_mem_cons.2
      ⟨Calls.param_iff.2 rfl, List.forall_mem_singleton.2 (constant_free 3)⟩⟩

theorem single : ∀ d ∈ duals, ∃ p, (Dual.raw d).params = [p] := by
  intro d hd
  simp only [duals, List.mem_cons, List.not_mem_nil, or_false] at hd
  rcases hd with rfl | rfl | rfl <;> exact ⟨_, rfl⟩

/-- A literal of one of the duals. -/
theorem denotes {d : Dual} (hd : d ∈ duals) {converted : Bool} :
    Denotes Dual.raw (· ∈ duals) converted d.kind (Dual.raw d) d.literal :=
  .literal hd (ofDual_wrapper ..)

theorem denotes_combination : ∃ l,
    Denotes Dual.raw (· ∈ duals) false .specification l combination := by
  have hpositive : positive ∈ duals := by simp [duals]
  have hnegated : Denotes Dual.raw (· ∈ duals) true .specification _
      (.unary .not positive.converted (some (Specification.negationMethod .int))
        (.specification .int)) := .negated rfl (.converted (denotes hpositive)) rfl
  exact ⟨_, .combined (.inl ⟨.inl rfl, rfl, rfl⟩) (denotes hpositive) hnegated rfl⟩

theorem refers : Refers (Denotes Dual.raw (· ∈ duals)) True false tree := by
  have hsuccessor : successor ∈ duals := by simp [duals]
  have hatThree : atThree ∈ duals := by simp [duals]
  have hthree : Refers (Denotes Dual.raw (· ∈ duals)) True false (Tree.constant (.int 3)) :=
    .of_unreferenced (constant_free 3).unreferenced
  obtain ⟨l, hcombination⟩ := denotes_combination
  have hevaluated : Refers (Denotes Dual.raw (· ∈ duals)) True false
      (Tree.evaluation .projection .int .int false successor.literal (Tree.constant (.int 3))) :=
    .evaluated false (denotes hsuccessor) hthree fun _ h => by cases h
  have hread : Refers (Denotes Dual.raw (· ∈ duals)) True true successor.functionRead :=
    .read (denotes hsuccessor) (unreferenced _ hsuccessor)
  have hguarded : (Dual.raw atThree).Guarded := by
    intro p hp
    obtain rfl : p = ⟨2, "f", .func [.int] .int⟩ := List.mem_singleton.1 hp
    refine ⟨fun h => (by cases h), Tree.everywhere_iff.2 ⟨fun h => ?_, fun c hc => ?_⟩⟩
    · obtain ⟨_, h⟩ := Tree.invoke.inj h
      cases h
    · simp only [Tree.children, Tree.node, Node.children, Dual.raw, atThree, List.mem_cons,
        List.not_mem_nil, or_false] at hc
      rcases hc with rfl | rfl <;>
        exact Tree.everywhere_leaf (fun h => (by cases h)) rfl
  have hconverted : Refers (Denotes Dual.raw (· ∈ duals)) True false successor.converted :=
    .standing (.converted (denotes hsuccessor)) (unreferenced _ hsuccessor)
  refine .node rfl (fun c hc => ?_) fun callee arg h => by cases h
  simp only [tree, Tree.children, Tree.node, Node.children, List.mem_cons, List.not_mem_nil,
    or_false] at hc
  rcases hc with rfl | rfl | rfl
  · exact ⟨false, .evaluated true hcombination hevaluated fun _ h => by cases h⟩
  · exact ⟨false, .evaluated false (denotes hatThree) hread fun _ _ => hguarded⟩
  · refine ⟨false, .node rfl (fun c hc => ?_) fun callee arg h => ?_⟩
    · simp only [Tree.children, Tree.node, Node.children, List.mem_cons, List.not_mem_nil,
        or_false] at hc
      rcases hc with rfl | rfl
      · exact ⟨false, hconverted⟩
      · exact ⟨false, hthree⟩
    · rw [← (Tree.invoke.inj h).1]
      exact hconverted

end Removed

/-- Everything in the tree is inlined. -/
theorem rewriteDefault_removes_all : ∃ s u t t', Holds Dual.raw (· ∈ Removed.duals) s ∧
    Reaches Registry.empty.host (fun E => rewriteDefault E Removed.tree) s u t ∧
    u.referencesDuals = false ∧
    Reaches Registry.empty.host (fun E => (Pass.default true).run E Removed.tree) s u t' := by
  have hs : Holds Dual.raw (· ∈ Removed.duals) (.publishing Removed.duals) :=
    holds_publishing (by decide)
  have hforms : Forms Registry.empty.host (Holds Dual.raw (· ∈ Removed.duals)) Dual.raw
      (· ∈ Removed.duals) := holds_forms Removed.single Removed.unreferenced
  obtain ⟨_, hends⟩ := rewriteDefault_removes hforms Removed.refers
  obtain ⟨u, hu, hrewrite, hchecked⟩ := hends trivial
  obtain ⟨t, ht, _⟩ := hrewrite _ hs
  obtain ⟨t', ht', _⟩ := hchecked _ hs
  exact ⟨_, u, t, t', hs, ht, hu, ht'⟩

/-! ## Trees in which something is left -/

/-- The final check lets no tree with references pass. -/
theorem run_default_refuses
    (h : ∀ N, Completes host I N True (fun u => u.referencesDuals = true) fun E => rewriteDefault E e)
    {n : Nat} {s : Store} (hs : I s) (u : Expr) (t : Store) :
    (Pass.default true).run (machine host n) e s ≠ .ok u t := by
  intro hrun
  rw [run_default] at hrun
  obtain ⟨v, t', hv, hrun⟩ := Act.bind_eq_ok.1 hrun
  rw [((h (n + 1)).delivers (n + 1) (Nat.le_refl _)).ensures.result _ _ _ hs hv] at hrun
  cases hrun

namespace Kept

/-- A specification of integers made from a function, with the tree `x => true` over a parameter that
is itself a projection. -/
def typed : Dual :=
  ⟨4, .specification, .int, .bool,
    .compiled ⟨⟨6, 1, .host "const" [.bool true]⟩,
      some ⟨[⟨4, "x", .projection .int .int⟩], Tree.constant (.bool true)⟩, none⟩⟩

/-- `x => x(x)`, as a projection. -/
def selfApplied : Dual :=
  ⟨5, .projection, .any, .any,
    .lambda ⟨[⟨5, "x", .any⟩], .invoke (.param ⟨5, "x", .any⟩) [.param ⟨5, "x", .any⟩]⟩⟩

def duals : List Dual := [Removed.successor, Removed.positive, typed, selfApplied]

/-- `typed & positive`. -/
def combination : Expr :=
  .binary .and typed.literal Removed.positive.literal (some (Specification.conjunctionMethod .int))

/-- `successor.evaluate(1, 2)`. -/
def overApplied : Expr :=
  .call Removed.successor.literal (Dual.evaluateMethod .projection .int .int)
    [Tree.constant (.int 1), Tree.constant (.int 2)]

/-- `selfApplied.evaluate(selfApplied.evaluate)`. -/
def endless : Expr := selfApplied.invoked selfApplied.functionRead

theorem single : ∀ d ∈ duals, ∃ p, (Dual.raw d).params = [p] := by
  intro d hd
  simp only [duals, List.mem_cons, List.not_mem_nil, or_false] at hd
  rcases hd with rfl | rfl | rfl | rfl <;> exact ⟨_, rfl⟩

theorem unreferenced : ∀ d ∈ duals, (Dual.raw d).tree.referencesDuals = false := by
  intro d hd
  simp only [duals, List.mem_cons, List.not_mem_nil, or_false] at hd
  rcases hd with rfl | rfl | rfl | rfl
  · exact Removed.unreferenced _ (by simp [Removed.duals])
  · exact Removed.unreferenced _ (by simp [Removed.duals])
  · exact Tree.anyNode_eq_false.2 (Tree.everywhere_single rfl rfl (Tree.everywhere_leaf rfl rfl))
  · refine Calls.unreferenced (Calls.lambda_iff.2 ⟨?_, .plain rfl <| List.forall_mem_cons.2
      ⟨Calls.param_iff.2 rfl, List.forall_mem_singleton.2 (Calls.param_iff.2 rfl)⟩⟩)
    simp [Dual.raw, selfApplied, Ty.wrapper?]

theorem forms (host : Host) : Forms host (Holds Dual.raw (· ∈ duals)) Dual.raw (· ∈ duals) :=
  holds_forms single unreferenced

/-- `x => true && x > 0` refers to a dual by its parameter. -/
theorem combination_kept (host : Host) (N : Nat) :
    Completes host (Holds Dual.raw (· ∈ duals)) N True (fun u => u.referencesDuals = true)
      fun E => rewriteDefault E combination := by
  have htyped : typed ∈ duals := by simp [duals]
  have hpositive : Removed.positive ∈ duals := by simp [duals]
  have hleft : Denotes Dual.raw (· ∈ duals) true .specification (Dual.raw typed) typed.literal :=
    .literal htyped rfl
  have hright : Denotes Dual.raw (· ∈ duals) true .specification (Dual.raw Removed.positive)
      Removed.positive.literal := .literal hpositive rfl
  have hboth : Denotes Dual.raw (· ∈ duals) true .specification _ combination :=
    .combined (.inl ⟨.inl rfl, rfl, rfl⟩) hleft hright rfl
  refine (rewriteDefault_denotes (forms host) hboth).imp fun u hu => ?_
  subst hu
  by_contra hnone
  have hall := Tree.anyNode_eq_false.1 (Bool.eq_false_iff.2 hnone)
  have hread := (((hall.child (List.mem_singleton.2 rfl)).child
    (List.mem_cons_of_mem _ (List.mem_singleton.2 rfl))).child (List.mem_cons_self ..)).here
  cases hread

/-- `(y => y + 1).evaluate(1, 2)` still goes through the method of projections. -/
theorem overApplied_kept (host : Host) (N : Nat) :
    Completes host (Holds Dual.raw (· ∈ duals)) N True (fun u => u.referencesDuals = true)
      fun E => rewriteDefault E overApplied := by
  have hsuccessor : Removed.successor ∈ duals := by simp [duals]
  have hknown : Known Dual.raw (· ∈ duals) (fun _ => True) false .projection
      (Dual.raw Removed.successor) Removed.successor.literal := .literal trivial hsuccessor rfl
  have hrun : ∀ (pass : DualPass) (E : Engine), pass.run E overApplied = (do
      let t ← pass.run E Removed.successor.literal
      return .call t (Dual.evaluateMethod .projection .int .int)
        [Tree.constant (.int 1), Tree.constant (.int 2)]) := by
    intro pass E
    have hconstant : ∀ k, pass.run E (Tree.constant (.int k)) = pure (Tree.constant (.int k)) :=
      fun k => (Tree.settled_of_unreferenced (Removed.constant_free k).unreferenced).run
    have hrebuild : pass.run E overApplied = Visited.rebuild
        (overApplied.node.map fun u => (u, pass.run E u)) := by
      rw [DualPass.run_eq]
      cases pass <;> rfl
    rw [hrebuild]
    simp [overApplied, Tree.node, Node.map, Visited.rebuild, Node.traverse, Node.tree, hconstant]
  have hother : ∀ pass ≠ DualPass.inlining .projection,
      Completes host (Holds Dual.raw (· ∈ duals)) N True (· = overApplied)
        fun E => E.rewrite pass overApplied := fun pass hpass =>
    rewrite_completes <| Completes.congr (fun E => by rw [hrun, hknown.run_other hpass]; rfl)
      (Completes.pure rfl)
  refine (hother .factories (by simp)).bind fun _ heq => ?_
  subst heq
  refine (hother .combinators (by simp)).bind fun _ heq => ?_
  subst heq
  refine (hother (.inlining .specification) (by simp)).bind fun _ heq => ?_
  subst heq
  have hlast : Completes host (Holds Dual.raw (· ∈ duals)) N True
      (fun u => u.referencesDuals = true) fun E => E.rewrite (.inlining .projection) overApplied := by
    refine rewrite_completes (Completes.congr (fun E => hrun _ E) ?_)
    refine (hknown.run_same (forms host)).bind fun u _ => Completes.pure ?_
    by_contra hnone
    have hcall := (Tree.anyNode_eq_false.1 (Bool.eq_false_iff.2 hnone)).here
    cases hcall
  exact hlast.bind fun u hu => Completes.pure hu

/-- Each step of inlining makes the same evaluation again. -/
theorem endless_inlining (host : Host) : ∀ (n : Nat) (s : Store), Holds Dual.raw (· ∈ duals) s →
    (DualPass.inlining .projection).run (machine host n) endless s = .error .exhausted s
  | 0, _, _ => rfl
  | n + 1, s, hs => by
      have htree : (machine host (n + 1)).tree selfApplied s = .ok (Dual.raw selfApplied) s :=
        tree_published (hs _ (by simp [duals])) n
      have happlied : (Dual.raw selfApplied).applied selfApplied.functionRead = .ok endless := rfl
      show (DualPass.inlining selfApplied.kind).run _ (selfApplied.invoked _) s = _
      rw [run_invoked_same]
      unfold spliced
      rw [Act.bind_ok htree, happlied]
      exact endless_inlining host n s hs

theorem endless_rewriting (host : Host) (n : Nat) {s : Store} (hs : Holds Dual.raw (· ∈ duals) s) :
    rewriteDefault (machine host n) endless s = .error .exhausted s := by
  cases n with
  | zero => rfl
  | succ n =>
      have hother : ∀ pass ≠ DualPass.inlining .projection,
          (machine host (n + 1)).rewrite pass endless s = .ok endless s := by
        intro pass hpass
        have hrun : pass.run (machine host n) endless = pure endless := by
          have haside := run_evaluation_aside (E := machine host n) .any .any hpass false
            selfApplied.literal selfApplied.functionRead
          rw [run_literal_other hpass, run_functionRead_other hpass] at haside
          exact haside
        rw [machine_rewrite, hrun]
        rfl
      rw [rewriteDefault_eq]
      refine (Act.bind_ok (hother .factories (by simp))).trans ?_
      refine (Act.bind_ok (hother .combinators (by simp))).trans ?_
      refine (Act.bind_ok (hother (.inlining .specification) (by simp))).trans ?_
      exact Act.bind_error (endless_inlining host n s hs)

end Kept

/-- Three ways to leave something behind, or to go on for ever: a combination that takes over the
parameter of a specification made from a function, which may itself be a dual; the evaluation method
on two arguments; and a lambda that applies its parameter to itself, evaluated on its own evaluator.
-/
theorem rewriteDefault_keeps_some :
    (∀ d ∈ Kept.duals, (∃ p, (Dual.raw d).params = [p]) ∧
      (Dual.raw d).tree.referencesDuals = false) ∧
    ∃ s, Holds Dual.raw (· ∈ Kept.duals) s ∧
      (∀ e ∈ [Kept.combination, Kept.overApplied],
        (∃ u t, Reaches Registry.empty.host (fun E => rewriteDefault E e) s u t ∧
          u.referencesDuals = true) ∧
        ∀ n u t, (Pass.default true).run (machine Registry.empty.host n) e s ≠ .ok u t) ∧
      ∀ n, rewriteDefault (machine Registry.empty.host n) Kept.endless s = .error .exhausted s := by
  have hs : Holds Dual.raw (· ∈ Kept.duals) (.publishing Kept.duals) := holds_publishing (by decide)
  have hkept : ∀ e, (∀ N, Completes Registry.empty.host (Holds Dual.raw (· ∈ Kept.duals)) N True
      (fun u => u.referencesDuals = true) fun E => rewriteDefault E e) →
      (∃ u t, Reaches Registry.empty.host (fun E => rewriteDefault E e) (.publishing Kept.duals) u t ∧
        u.referencesDuals = true) ∧ ∀ n u t, (Pass.default true).run
          (machine Registry.empty.host n) e (.publishing Kept.duals) ≠ .ok u t := by
    intro e he
    obtain ⟨u, hu, hsettles⟩ := (he 0).settles trivial
    obtain ⟨t, ht, _⟩ := hsettles _ hs
    exact ⟨⟨u, t, ht, hu⟩, fun n v t => run_default_refuses he hs v t⟩
  refine ⟨fun d hd => ⟨Kept.single d hd, Kept.unreferenced d hd⟩, _, hs, fun e he => ?_, fun n =>
    Kept.endless_rewriting _ n hs⟩
  rcases List.mem_cons.1 he with rfl | he
  · exact hkept _ (Kept.combination_kept _)
  · rw [List.mem_singleton.1 he]
    exact hkept _ (Kept.overApplied_kept _)

end DualForm
