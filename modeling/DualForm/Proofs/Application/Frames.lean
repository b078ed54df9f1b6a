import DualForm.Proofs.Application.Reading
import DualForm.Proofs.Steps

/-!
# Reports of unbound parameters

* `Report` — what a read of an unbound parameter does; `Report.standard` — it fails.
* `evaluateReporting report E σ t` — the value of a tree where such reads do something else, computed node by
  node from the actions that evaluate the subtrees.
* `Tree.Frame σ e s u` — the evaluation of `e` in `σ`, and calls of the functions made in it, evaluate `u` in
  `s`: the whole tree, parts of what is evaluated, and bodies of lambdas over the scopes they have kept.
* `machineReporting host report frames n` — the machine where calls that evaluate a body in `frames` do so with
  another report.
* `Unreported host σ e` — no report is ever asked for in the frames of `e`.

Principal results: `evaluateReporting_standard` — with the standard report this is evaluation;
`Scope.Binds.unreported` — where the free parameters of a tree are bound, none of its parameter nodes is
reported, also when functions made by it are called later.
-/

namespace DualForm

variable {host : Host} {E : Engine} {e t u : Expr} {σ s : Scope} {ps bound : List Param}

/-! ## Another report -/

/-- What a read of an unbound parameter does. -/
abbrev Report := Engine → Scope → Param → Act Value

/-- It fails. -/
def Report.standard : Report := fun _ _ p => Act.fail (.unboundParameter p.name)

/-- The value of a node in a scope, from the actions that evaluate its subtrees. -/
def evaluationAt (report : Report) (E : Engine) (scope : Scope) : ExprNode (Expr × Act Value) → Act Value
  | .literal v _ => pure v
  | .param p =>
      match scope.lookup? p with
      | some v => pure v
      | none => report E scope p
  | .staticMember m => m.read E none
  | .member (_, target) m => do m.read E (some (← target))
  | .staticCall m args => do m.invoke E none (← args.mapM Prod.snd)
  | .call (_, target) m args => do
      let v ← target
      m.invoke E (some v) (← args.mapM Prod.snd)
  | .binary _ (_, lhs) (_, rhs) (some m) => do
      let l ← lhs
      let r ← rhs
      m.invoke E none [l, r]
  | .binary .andAlso (_, lhs) (_, rhs) none => do
      if ← Act.lift (Value.expectBool "&&" (← lhs)) then
        return .bool (← Act.lift (Value.expectBool "&&" (← rhs)))
      else return .bool false
  | .binary .orElse (_, lhs) (_, rhs) none => do
      if ← Act.lift (Value.expectBool "||" (← lhs)) then return .bool true
      else return .bool (← Act.lift (Value.expectBool "||" (← rhs)))
  | .binary op (_, lhs) (_, rhs) none => do
      let l ← lhs
      let r ← rhs
      Act.lift (Value.applyBinary op l r)
  | .unary op (_, operand) via ty => do
      let v ← operand
      match via with
      | some m => m.invoke E none [v]
      | none => Act.lift (Value.applyUnary op v ty)
  | .lambda params (body, _) => return .func (← Act.newFunc params.length (.closure ⟨params, body⟩ scope))
  | .invoke (_, callee) args => do
      let v ← callee
      let args ← args.mapM Prod.snd
      match v with
      | .func f => E.call f args
      | v => Act.fail (.typeMismatch "function" (Value.ty v).text)
  | .conditional (_, test) (_, ifTrue) (_, ifFalse) => do
      if ← Act.lift (Value.expectBool "?:" (← test)) then ifTrue else ifFalse

/-- The value of a tree in a scope, with a report. -/
def evaluateReporting (report : Report) (E : Engine) (scope : Scope) : Expr → Act Value :=
  Tree.fold (evaluationAt report E scope)

theorem evaluateReporting_eq (report : Report) (t : Expr) : evaluateReporting report E s t =
    evaluationAt report E s (t.node.map fun u => (u, evaluateReporting report E s u)) := Tree.fold_eq _ t

theorem mapM_evaluate (ts : List Expr) :
    (ts.map fun t => (t, evaluate E s t)).mapM Prod.snd = evaluateAll E s ts := by
  rw [List.mapM_map, evaluateAll_eq_mapM]
  rfl

/-- Evaluation, one node at a time. -/
theorem evaluate_node (t : Expr) :
    evaluate E s t = evaluationAt .standard E s (t.node.map fun u => (u, evaluate E s u)) := by
  cases t with
  | staticCall m args =>
      show (do m.invoke E none (← evaluateAll E s args)) = _
      rw [← mapM_evaluate]
      rfl
  | call target m args =>
      show (do
        let v ← evaluate E s target
        m.invoke E (some v) (← evaluateAll E s args)) = _
      rw [← mapM_evaluate]
      rfl
  | invoke callee args =>
      rw [evaluate_invoke, ← mapM_evaluate]
      rfl
  | binary op lhs rhs via => cases via <;> cases op <;> rfl
  | _ => rfl

/-- **With the standard report this is evaluation.** -/
theorem evaluateReporting_standard (t : Expr) : evaluateReporting .standard E s t = evaluate E s t := by
  induction t using Tree.childwise with
  | step t ih =>
      have hsubtrees : (t.node.map fun u => (u, evaluateReporting .standard E s u)) =
          t.node.map fun u => (u, evaluate E s u) :=
        Node.map_congr fun u hu => congrArg (Prod.mk u) (ih u hu)
      rw [evaluateReporting_eq, hsubtrees, ← evaluate_node]

/-! ## Bound parameters -/

/-- The scope binds the parameters. -/
def Scope.Binds (σ : Scope) (ps : List Param) : Prop := ∀ p ∈ ps, ∃ v, σ.lookup? p = some v

/-- Parameters bound to as many arguments are bound. -/
theorem Scope.lookup?_bindAll_of_mem {q : Param} : ∀ {ps : List Param} {vs : List Value} (σ : Scope),
    ps.length = vs.length → (q ∈ ps ∨ ∃ v, σ.lookup? q = some v) → ∃ v, (σ.bindAll ps vs).lookup? q = some v
  | [], [], _, _, hq => hq.resolve_left List.not_mem_nil
  | p :: ps, v :: vs, σ, hlength, hq => by
      rw [bindAll_cons]
      refine lookup?_bindAll_of_mem _ (Nat.succ.inj hlength) ?_
      rw [lookup?_cons]
      by_cases hqp : q = p
      · exact .inr ⟨v, if_pos hqp⟩
      · rw [if_neg hqp]
        exact hq.imp_left fun hq => (List.mem_cons.1 hq).resolve_left hqp

theorem Scope.Binds.bindAll {vs : List Value} (h : σ.Binds bound) (hlength : ps.length = vs.length) :
    (σ.bindAll ps vs).Binds (ps ++ bound) := fun p hp =>
  lookup?_bindAll_of_mem σ hlength ((List.mem_append.1 hp).imp_right (h p))

theorem evaluateReporting_unbound {report : Report} {p : Param} (h : s.lookup? p = none) :
    evaluateReporting report E s (.param p) = report E s p := by
  show (match s.lookup? p with | some v => pure v | none => report E s p) = _
  rw [h]

/-- **Where all parameters in scope are bound,** no report is asked for. -/
theorem evaluateReporting_bound (report : Report) (ht : Tree.Scoped bound t) (hs : s.Binds bound) :
    evaluateReporting report E s t = evaluate E s t := by
  induction t using Tree.binderwise with
  | param p =>
      obtain ⟨v, hv⟩ := hs p ht
      show (match s.lookup? p with | some v => pure v | none => report E s p) = _
      rw [hv, evaluate_bound hv]
  | lambda ps b => rfl
  | other t hparam hlambda ih =>
      have hsubtrees : (t.node.map fun u => (u, evaluateReporting report E s u)) =
          t.node.map fun u => (u, evaluate E s u) :=
        Node.map_congr fun u hu =>
          congrArg (Prod.mk u) (ih u hu ((Tree.scoped_other hparam hlambda).1 ht u hu))
      rw [evaluateReporting_eq, hsubtrees, evaluate_node]
      cases t with
      | param p => exact absurd rfl (hparam p)
      | binary op lhs rhs via => cases via <;> cases op <;> rfl
      | _ => rfl

/-! ## Frames -/

/-- The evaluation of a tree, and later calls of the functions made in it, evaluate `u` in `s`. -/
inductive Tree.Frame (σ : Scope) (e : Expr) : Scope → Expr → Prop
  | whole : Frame σ e σ e
  | part {s : Scope} {t u : Expr} : Frame σ e s t → (∀ ps b, t ≠ .lambda ps b) → u ∈ t.children →
      Frame σ e s u
  | called {s : Scope} {ps : List Param} {b : Expr} (args : List Value) : Frame σ e s (.lambda ps b) →
      ps.length = args.length → Frame σ e (Scope.bindAll s ps args) b

/-- **In every frame, the parameters in scope are bound** if the free parameters of the whole tree are. -/
theorem Tree.Frame.inScope (h : Tree.Frame σ e s u) (hσ : σ.Binds e.freeParams) :
    ∃ bound, Tree.Scoped bound u ∧ s.Binds bound := by
  induction h with
  | whole => exact ⟨e.freeParams, (scoped_freeParams e [] []).2, hσ⟩
  | @part s t u _ hlambda hu ih =>
      obtain ⟨bound, hscoped, hs⟩ := ih
      have hchild := hscoped.child hu
      cases t with
      | lambda ps b => exact absurd rfl (hlambda ps b)
      | _ => exact ⟨bound, hchild, hs⟩
  | called args _ hlength ih =>
      obtain ⟨bound, hscoped, hs⟩ := ih
      exact ⟨_, hscoped, hs.bindAll hlength⟩

/-! ## The machine with a report -/

open Classical in
/-- One call of a function, where bodies in `frames` are evaluated with the report. -/
noncomputable def Func.applyReporting (host : Host) (report : Report) (frames : Scope → Expr → Prop)
    (E : Engine) (f : Func) (args : List Value) : Act Value :=
  match f.code with
  | .closure l s =>
      if frames s l.tree ∧ args.length = f.arity ∧ l.params.length = args.length then
        evaluateReporting report E (Scope.bindAll s l.params args) l.body
      else f.apply host E args
  | _ => f.apply host E args

/-- The machine where calls that evaluate a body in `frames` evaluate it with the report. -/
noncomputable def machineReporting (host : Host) (report : Report) (frames : Scope → Expr → Prop) :
    Nat → Engine
  | 0 => .exhausted
  | n + 1 =>
      { call := fun f args s =>
          f.applyReporting host report frames (machineReporting host report frames n) args s
        tree := fun d s => d.forceTree host (machineReporting host report frames n) s
        function := fun d s => d.forceFunction host (machineReporting host report frames n) s
        rewrite := fun pass t s => pass.run (machineReporting host report frames n) t s }

/-- No report is asked for in the frames of the tree: however it would be answered, the evaluation of the tree
and all calls, those of the functions made in it included, are the same. -/
def Unreported (host : Host) (σ : Scope) (e : Expr) : Prop :=
  ∀ (report : Report) (n : Nat),
    evaluateReporting report (machineReporting host report (Tree.Frame σ e) n) σ e =
      evaluate (machine host n) σ e ∧
    machineReporting host report (Tree.Frame σ e) n = machine host n

section InScope

variable (report : Report) {frames : Scope → Expr → Prop}
  (hframes : ∀ s u, frames s u → ∃ bound, Tree.Scoped bound u ∧ s.Binds bound)

include hframes

theorem applyReporting_eq (f : Func) (args : List Value) :
    f.applyReporting host report frames E args = f.apply host E args := by
  obtain ⟨id, arity, code⟩ := f
  cases code with
  | closure l s =>
      unfold Func.applyReporting
      dsimp only
      split
      · rename_i h
        obtain ⟨hframe, hargs, hlength⟩ := h
        obtain ⟨bound, hscoped, hs⟩ := hframes s l.tree hframe
        rw [evaluateReporting_bound report (Tree.scoped_lambda.1 hscoped) (hs.bindAll hlength)]
        unfold Func.apply
        rw [if_neg (not_not.2 hargs)]
        rfl
      · rfl
  | _ => rfl

/-- **Where the parameters in scope are bound in all frames,** the machine asks for no report. -/
theorem machineReporting_eq : ∀ n, machineReporting host report frames n = machine host n
  | 0 => rfl
  | n + 1 => by
      unfold machineReporting machine
      rw [machineReporting_eq n]
      simp only [applyReporting_eq report hframes]

end InScope

/-- **Where the free parameters of a tree are bound, none of its parameter nodes is reported,** neither in its
evaluation nor when functions made in it are called later. -/
theorem Scope.Binds.unreported (h : σ.Binds e.freeParams) : Unreported host σ e := fun report n => by
  have hframes : ∀ s u, Tree.Frame σ e s u → ∃ bound, Tree.Scoped bound u ∧ s.Binds bound :=
    fun _ _ hframe => hframe.inScope h
  have hmachine : machineReporting host report (Tree.Frame σ e) n = machine host n :=
    machineReporting_eq report hframes n
  rw [hmachine]
  exact ⟨evaluateReporting_bound report (Tree.scoped_freeParams e [] []).2 h, rfl⟩

/-- A read alone is unreported only where its parameter is bound. -/
theorem unreported_param {p : Param} : Unreported host σ (.param p) ↔ ∃ v, σ.lookup? p = some v := by
  constructor
  · intro h
    cases hlookup : σ.lookup? p with
    | some v => exact ⟨v, rfl⟩
    | none =>
        -- a report that stops for another reason would show
        have hrun := (h (fun _ _ _ => throw Stop.exhausted) 0).1
        rw [evaluateReporting_unbound hlookup, evaluate_unbound hlookup] at hrun
        cases congrFun hrun Store.initial
  · rintro ⟨v, hv⟩
    refine Scope.Binds.unreported fun q hq => ?_
    have hfree : q ∈ [p] := hq
    rw [List.mem_singleton.1 hfree]
    exact ⟨v, hv⟩

end DualForm
