import DualForm.Machine
import DualForm.Proofs.Factory.Slices
import DualForm.Proofs.Rewriting.Visit

/-!
# What is made of a factory

* `Factory.Declaration` — what a factory is created with.
* `Declaration.Reached v` — `v` is a factory of the declaration, or is bound from one in any number of steps:
  directly, by a binding method at run time, or by the pass that binds factories.
* `Declaration.Tracked v` — `v` is a factory over the declared parameters, or a dual with one argument for each.
* `Host.reading formals` — the host with builders that read their arguments one by one, by position.

Principal results: `run_reached` — the pass puts nothing else into a tree than what is reached;
`reached_within` — no slice of what is reached is out of range, and its builders are called on one argument
for each declared parameter, in this order.
-/

namespace DualForm

open Act (Gives)
open Factory (Core)

/-! ## Declared factories, and all that is bound from them -/

/-- What a factory is created with. -/
structure Factory.Declaration where
  kind : DualKind
  builders : Builders
  next : FormalParam
  second : Option FormalParam
  source : Ty
  result : Ty

namespace Factory.Declaration

/-- The formal parameters, in declaration order. -/
def formals (D : Declaration) : List FormalParam := D.next :: D.second.toList

/-- A new factory. -/
def create (D : Declaration) : Act Factory :=
  Factory.create D.kind D.builders D.next D.second D.source D.result

/-- The core of a factory with these arguments bound. -/
def core (D : Declaration) (bound : List Argument) : Core :=
  ⟨D.kind, D.builders, D.formals, bound, D.source, D.result⟩

/-- The dual with these arguments. -/
def dual (D : Declaration) (id : Nat) (args : List Argument) : Dual :=
  ⟨id, D.kind, D.source, D.result, .bound D.builders (D.formals.zip args)⟩

/-- Factories of the declaration, and everything bound from them. -/
inductive Reached (D : Declaration) : Value → Prop
  | created {k : Factory} {s t : Store} : D.create s = .ok k t → D.Reached (.factory k)
  /-- Any number of arguments may be given. -/
  | bound {k : Factory} {args : List Argument} {v : Value} {s t : Store} : D.Reached (.factory k) →
      k.bindArguments args s = .ok v t → D.Reached v
  /-- The method may be one of another factory. -/
  | invoked {E : Engine} {k : Factory} {m : Method Invoker} {ws : List Value} {v : Value} {s t : Store} :
      D.Reached (.factory k) → m.invoker = .bind → m.invoke E (some (.factory k)) ws s = .ok v t → D.Reached v
  /-- The receiver of the call folds to the factory once it is rewritten. -/
  | resolved {E : Engine} {k : Factory} {m : Method Invoker} {receiver r : Expr} {as : List Expr} {v : Value}
      {ty : Ty} {s s₁ s₂ t : Store} : D.Reached (.factory k) → isBinding m = true →
      DualPass.factories.run E receiver s = .ok r s₁ → evaluateNotNull E r s₁ = .ok (.factory k) s₂ →
      DualPass.factories.run E (.call receiver m as) s = .ok (.literal v ty) t → D.Reached v

/-- A factory over the declared parameters, or a dual with one argument for each of them. -/
inductive Tracked (D : Declaration) : Value → Prop
  | factory {k : Factory} : k.core = D.core k.core.bound → D.Tracked (.factory k)
  | dual (id : Nat) {args : List Argument} : args.length = D.formals.length → D.Tracked (.dual (D.dual id args))

end Factory.Declaration

namespace Factory

variable {D : Declaration} {E : Engine} {k : Factory} {m : Method Invoker} {v : Value} {s t : Store}

/-! ## One step -/

/-- Binding adds the arguments to the core, and pairs them with the parameters when none is missing. -/
theorem bindArguments_core {args : List Argument} (h : k.bindArguments args s = .ok v t) :
    (∃ l, v = .factory l ∧ l.core = { k.core with bound := k.core.bound ++ args }) ∨
    args.length = k.arity ∧ v = .dual ⟨s.nextId, k.kind, k.source, k.result,
      .bound k.builders (k.core.params.zip (k.core.bound ++ args))⟩ := by
  rcases bindArguments_ok h with ⟨hall, rfl⟩ | ⟨second, a, hs, rfl, rfl⟩
  · exact .inr ⟨hall, by rw [core_zip]⟩
  · exact .inl ⟨_, rfl, core_rest hs _ a⟩

/-- The declared parameters are those of the arguments bound and those left open. -/
theorem core_count (k : Factory) : k.core.bound.length + k.arity = k.core.params.length := by
  simp [core, arity]

/-- A method that binds binds some arguments. -/
theorem invoke_bound {ws : List Value} (hm : m.invoker = .bind)
    (h : m.invoke E (some (.factory k)) ws s = .ok v t) : ∃ args, k.bindArguments args s = .ok v t := by
  by_cases hlength : ws.length = m.params.length
  · rw [invoke_bind hm hlength] at h
    exact ⟨_, h⟩
  · unfold Method.invoke at h
    rw [if_pos hlength] at h
    cases h

/-- The pass binds some arguments of the factory to which a receiver folds. -/
theorem run_bound {receiver u : Expr} {as : List Expr} (hm : isBinding m = true)
    (h : DualPass.factories.run E (.call receiver m as) s = .ok u t) :
    ∃ r s₁ k s₂, DualPass.factories.run E receiver s = .ok r s₁ ∧
      evaluateNotNull E r s₁ = .ok (.factory k) s₂ ∧
        ∃ args v s₃, k.bindArguments args s₃ = .ok v t ∧ u = .literal v (Value.ty v) := by
  rw [run_binding hm] at h
  obtain ⟨r, s₁, hr, h⟩ := Act.bind_eq_ok.1 h
  obtain ⟨w, s₂, hw, h⟩ := Act.bind_eq_ok.1 h
  cases w with
  | factory k =>
      obtain ⟨args, s₃, -, h⟩ := Act.bind_eq_ok.1 h
      obtain ⟨v, s₄, hv, h⟩ := Act.bind_eq_ok.1 h
      obtain ⟨rfl, rfl⟩ := Act.pure_eq_ok.1 h
      exact ⟨r, s₁, k, s₂, hr, hw, args, v, s₃, hv, rfl⟩
  | _ => cases h

namespace Declaration

theorem tracked_created (h : D.create s = .ok k t) : D.Tracked (.factory k) := by
  obtain ⟨id, s₁, -, h⟩ := Act.bind_eq_ok.1 h
  obtain ⟨rfl, -⟩ := Act.pure_eq_ok.1 h
  exact .factory rfl

theorem Tracked.core (h : D.Tracked (.factory k)) : k.core = D.core k.core.bound := by
  cases h with
  | factory h => exact h

/-- As many parameters are declared as arguments are bound and parameters are left open. -/
theorem Tracked.count (h : D.Tracked (.factory k)) : k.core.bound.length + k.arity = D.formals.length := by
  rw [core_count, h.core]
  rfl

/-- The open parameters are those declared after the ones of the arguments bound. -/
theorem Tracked.openParams (h : D.Tracked (.factory k)) : k.openParams = D.formals.drop k.core.bound.length := by
  have hparams : k.bound.map Prod.fst ++ k.openParams = D.formals := congrArg Core.params h.core
  have hbound : k.core.bound.length = (k.bound.map Prod.fst).length := by
    simp [Factory.core]
  rw [hbound, ← hparams, List.drop_left]

/-- **Binding keeps track of the parameters.** -/
theorem Tracked.bound {args : List Argument} (hk : D.Tracked (.factory k))
    (h : k.bindArguments args s = .ok v t) : D.Tracked v := by
  have hcore := hk.core
  rcases bindArguments_core h with ⟨l, rfl, hl⟩ | ⟨hall, rfl⟩
  · refine .factory ?_
    rw [hl, hcore]
    rfl
  · obtain ⟨hkind, hbuilders, hparams, -, hsource, hresult⟩ := Core.mk.inj hcore
    have hlength : (k.core.bound ++ args).length = D.formals.length := by
      rw [List.length_append, hall, hk.count]
    have hdual : (⟨s.nextId, k.kind, k.source, k.result, .bound k.builders
        (k.core.params.zip (k.core.bound ++ args))⟩ : Dual) = D.dual s.nextId (k.core.bound ++ args) := by
      rw [Declaration.dual, ← hkind, ← hbuilders, ← hsource, ← hresult, ← hparams]
      rfl
    rw [hdual]
    exact .dual _ hlength

/-! ## Every step -/

/-- **The parameters are kept track of in everything that is reached.** -/
theorem Reached.tracked (h : D.Reached v) : D.Tracked v := by
  induction h with
  | created h => exact tracked_created h
  | bound _ h ih => exact ih.bound h
  | invoked _ hm h ih =>
      obtain ⟨args, h⟩ := invoke_bound hm h
      exact ih.bound h
  | resolved _ hm hr hk h ih =>
      obtain ⟨r, s₁, k, s₂, hr', hk', args, w, s₃, hw, hu⟩ := run_bound hm h
      cases hr.symm.trans hr'
      cases hk.symm.trans hk'
      cases hu
      exact ih.bound hw

/-! ## The pass over a whole tree -/

/-- What a literal holds is given, or is reached. -/
def Yields (D : Declaration) (given : Value → Prop) (t : Expr) : Prop :=
  ∀ v ty, t = .literal v ty → given v ∨ D.Reached v

/-- What a literal holds is given, and a factory that is bound at this node is reached. -/
structure Feeds (D : Declaration) (E : Engine) (given : Value → Prop) (t : Expr) : Prop where
  literal : ∀ v ty, t = .literal v ty → given v
  receiver : ∀ receiver m as, t = .call receiver m as → isBinding m = true → ∀ s r s₁ k s₂,
    DualPass.factories.run E receiver s = .ok r s₁ → evaluateNotNull E r s₁ = .ok (.factory k) s₂ →
    D.Reached (.factory k)

/-- A pass over a node that binds nothing rebuilds it, or fails. -/
theorem run_unbound {t : Expr} (h : ∀ receiver m as, t = .call receiver m as → isBinding m = false) :
    (∃ e, DualPass.factories.run E t = Act.fail e) ∨
      DualPass.factories.run E t = Visited.rebuild (t.node.map fun u => (u, DualPass.factories.run E u)) := by
  rw [DualPass.run_eq]
  cases t with
  | call receiver m as => exact .inr (if_pos (by rw [h _ _ _ rfl]; exact Bool.false_ne_true))
  | staticCall m as =>
      by_cases hm : isBinding m = true
      · exact .inl ⟨_, if_pos hm⟩
      · exact .inr (if_neg hm)
  | _ => exact .inr rfl

/-- **The pass puts into a tree only what is reached.** -/
theorem run_reached {given : Value → Prop} {t : Expr} (ht : t.Everywhere (D.Feeds E given)) :
    Gives (fun _ => True) (fun u => u.Everywhere (D.Yields given)) (DualPass.factories.run E t) := by
  induction t using Tree.childwise with
  | step t ih =>
      by_cases hbinding : ∃ receiver m as, t = .call receiver m as ∧ isBinding m = true
      · obtain ⟨receiver, m, as, rfl, hm⟩ := hbinding
        refine ⟨fun s u t' hu _ => ⟨trivial, ?_⟩⟩
        obtain ⟨r, s₁, k, s₂, hr, hk, args, v, s₃, hv, rfl⟩ := run_bound hm hu
        have hreached := ht.here.receiver _ _ _ rfl hm _ _ _ _ _ hr hk
        refine Tree.everywhere_leaf (fun w ty hw => ?_) rfl
        cases hw
        exact .inr (hreached.bound hv)
      · have hunbound : ∀ receiver m as, t = .call receiver m as → isBinding m = false :=
          fun receiver m as h => Bool.eq_false_iff.2 fun hm => hbinding ⟨receiver, m, as, h, hm⟩
        rcases run_unbound (E := E) hunbound with ⟨e, he⟩ | hrebuild
        · rw [he]
          exact Gives.fail e
        · rw [hrebuild]
          refine (rebuild_results (Gives.logic _) (R := fun _ u => u.Everywhere (D.Yields given))
            fun c hc => ?_).imp ?_
          · rw [Node.children_map] at hc
            obtain ⟨u, hu, rfl⟩ := List.mem_map.1 hc
            exact ih u hu (ht.child hu)
          · rintro u ⟨hhead, hchildren⟩
            rw [Visited.given_node] at hhead
            refine Tree.everywhere_iff.2 ⟨fun v ty hv => ?_, forall_right hchildren fun _ _ _ h => h⟩
            subst hv
            cases t <;> cases hhead
            exact .inl (ht.here.literal _ _ rfl)

end Declaration

end Factory

/-! ## What builders read -/

/-- The arguments a builder reads one by one, by position, as many as there are formal parameters. There are
none where one is missing, or where the arguments are not those of these parameters in this order. -/
def Captured.reads? (formals : List FormalParam) (args : List Captured) : Option (List Captured) :=
  if args.map Captured.formal = formals then (List.range formals.length).mapM fun i => args[i]? else none

/-- The host with builders that read their arguments so, and stop where there are none. -/
def Host.reading (host : Host) (formals : List FormalParam) (stop : Stop) : Host :=
  { host with
    buildTree := fun E build args =>
      match Captured.reads? formals args with
      | some args => host.buildTree E build args
      | none => throw stop
    buildFunction := fun E build args =>
      match Captured.reads? formals args with
      | some args => host.buildFunction E build args
      | none => throw stop }

section Reading

variable {host : Host} {formals : List FormalParam} {stop : Stop} {E : Engine} {bs : Bindings}

theorem mapM_positions {α : Type} : ∀ xs : List α, (List.range xs.length).mapM (fun i => xs[i]?) = some xs
  | [] => rfl
  | x :: xs => by
      have hrest : (List.range xs.length).mapM ((fun i => (x :: xs)[i]?) ∘ Nat.succ) = some xs :=
        mapM_positions xs
      rw [List.length_cons, List.range_succ_eq_map, List.mapM_cons, List.mapM_map, hrest]
      rfl

theorem Captured.reads_formals {cs : List Captured} (h : cs.map Captured.formal = formals) :
    reads? formals cs = some cs := by
  rw [reads?, if_pos h, ← h, List.length_map]
  exact mapM_positions cs

theorem buildTree_reading {cs : List Captured} (h : cs.map Captured.formal = formals) (b : Builders) :
    b.buildTree (host.reading formals stop) E cs = b.buildTree host E cs := by
  cases b <;> simp [Builders.buildTree, Host.reading, Captured.reads_formals h]

theorem buildFunction_reading {cs : List Captured} (h : cs.map Captured.formal = formals) (b : Builders) :
    b.buildFunction (host.reading formals stop) E cs = b.buildFunction host E cs := by
  cases b <;> simp [Builders.buildFunction, Host.reading, Captured.reads_formals h]

/-- Arguments are captured under their formal parameters. -/
theorem captured_formals (bs : Bindings) :
    (bs.map fun b => b.2.captured b.1).map Captured.formal = bs.map Prod.fst := by
  rw [List.map_map]
  refine List.map_congr_left fun b _ => ?_
  obtain ⟨formal, arg⟩ := b
  cases arg <;> rfl

/-- So they are once their accessors have been read. -/
theorem resolved_formals (bs : Bindings) :
    Gives (fun _ => True) (fun cs => cs.map Captured.formal = bs.map Prod.fst) (bs.resolved E) := by
  have hone : ∀ b ∈ bs, Gives (fun _ => True) (fun c : Captured => c.formal = b.1) (b.2.resolved E b.1) := by
    rintro ⟨formal, arg⟩ -
    cases arg with
    | value v => exact Gives.pure rfl
    | deferred accessor => exact Gives.unknown.bind fun v => Gives.pure fun _ => rfl
  refine ((Gives.logic _).mapM_mem bs hone).imp fun cs hcs => ?_
  induction hcs with
  | nil => rfl
  | cons h _ ih => exact congrArg₂ List.cons h (ih fun b hb => hone b (List.mem_cons_of_mem _ hb))

theorem tree_reading (h : bs.map Prod.fst = formals) (b : Builders) :
    bs.tree (host.reading formals stop) E b = bs.tree host E b := by
  unfold Bindings.tree
  rw [buildTree_reading ((captured_formals bs).trans h)]
  rfl

theorem built_reading (h : bs.map Prod.fst = formals) (b : Builders) :
    bs.built (host.reading formals stop) E b = bs.built host E b := by
  funext s
  unfold Bindings.built
  cases hread : bs.resolved E s with
  | ok cs t =>
      rw [Act.bind_ok hread, Act.bind_ok hread]
      rw [buildFunction_reading (((resolved_formals bs).result s cs t hread trivial).2.trans h)]
  | error e t => rw [Act.bind_error hread, Act.bind_error hread]

end Reading

namespace Factory.Declaration

variable {D : Declaration} {v : Value}

/-- The builders behind a dual of the declaration, called for a form of it or by its function form, read as
many arguments as there are formal parameters, each that of the parameter at its position. -/
structure ReadsInRange (D : Declaration) (id : Nat) (args : List Argument) : Prop where
  tree : ∀ (host : Host) stop E,
    (D.dual id args).initialTree (host.reading D.formals stop) E = (D.dual id args).initialTree host E
  function : ∀ (host : Host) stop E,
    (D.dual id args).initialFunction (host.reading D.formals stop) E = (D.dual id args).initialFunction host E
  rebuilt : ∀ (host : Host) stop E self xs,
    (Code.rebuilt D.builders (D.formals.zip args)).run (host.reading D.formals stop) E self xs =
      (Code.rebuilt D.builders (D.formals.zip args)).run host E self xs

theorem readsInRange (id : Nat) {args : List Argument} (h : args.length = D.formals.length) :
    D.ReadsInRange id args := by
  have hformals : (D.formals.zip args).map Prod.fst = D.formals := List.map_fst_zip (Nat.le_of_eq h.symm)
  refine ⟨fun host stop E => ?_, fun host stop E => ?_, fun host stop E self xs => ?_⟩
  · show (do rewriteLambda E (← Bindings.tree _ E D.builders (D.formals.zip args))) = _
    rw [tree_reading hformals]
    rfl
  · show Bindings.function _ E D.builders (D.formals.zip args) = _
    unfold Bindings.function
    rw [built_reading hformals]
    rfl
  · match xs with
    | [x] =>
        show (do E.call (← Bindings.built _ E D.builders (D.formals.zip args)) [x]) = _
        rw [built_reading hformals]
        rfl
    | [] | _ :: _ :: _ => rfl

/-- **Factories stay within the bounds of their parameters.** Let a value be reached from a declaration by
creating a factory of it and binding arguments in any number of steps: directly, with any number of arguments,
by a method at run time, or by the pass that binds factories.

* If it is a factory, it is over the declared parameters. Those after the arguments bound are open, one or two as
  its type says, and every slice that is read of it exists. It makes a dual of as many arguments as are open, a
  factory with the second parameter left of one where two are open, and an error of any other number.
* Otherwise it is a dual with one argument for each declared parameter. Its builders are called only on what is
  captured of these arguments, in the order of the parameters and each under its own, so no read of theirs
  fails. -/
theorem reached_within (h : D.Reached v) :
    (∃ k, v = .factory k ∧ k.core = D.core k.core.bound ∧ k.openParams = D.formals.drop k.core.bound.length ∧
      k.core.bound.length + k.arity = D.formals.length ∧ (k.arity = 1 ∨ k.arity = 2) ∧ k.InRange ∧ k.ByCount) ∨
    ∃ id args, v = .dual (D.dual id args) ∧ args.length = D.formals.length ∧ D.ReadsInRange id args := by
  have htracked := h.tracked
  cases v with
  | factory k =>
      exact .inl ⟨k, rfl, htracked.core, htracked.openParams, htracked.count, arity_cases k, inRange k, byCount k⟩
  | dual d =>
      cases htracked with
      | dual id hlength => exact .inr ⟨id, _, rfl, hlength, readsInRange id hlength⟩
  | _ => cases htracked

/-! ## A factory with two parameters -/

namespace Line

/-- Makes projections out of a slope and a height. -/
def declaration : Declaration := ⟨.projection, .tree 0, ⟨"slope", .int⟩, some ⟨"height", .int⟩, .int, .int⟩

/-- The factory, as it is created. -/
def whole : Factory := ⟨0, .projection, .tree 0, [], ⟨"slope", .int⟩, some ⟨"height", .int⟩, .int, .int⟩

/-- The factory with `3` bound as the slope. -/
def steep : Factory :=
  { whole.rest ⟨"height", .int⟩ with id := 1, bound := [(⟨"slope", .int⟩, .value (.int 3))] }

/-- The dual with `4` bound as the height. -/
def line : Dual := declaration.dual 2 [.value (.int 3), .value (.int 4)]

/-- A store in which as many identities have been given out. -/
def store (n : Nat) : Store := { Store.initial with nextId := n }

theorem reached : declaration.Reached (.dual line) := by
  have hwhole : declaration.create (store 0) = .ok whole (store 1) := rfl
  have hsteep : whole.bindFirstMethod.invoke .exhausted (some (.factory whole)) [.int 3] (store 1) =
      .ok (.factory steep) (store 2) := rfl
  have hreceiver : DualPass.factories.run .exhausted steep.literal (store 2) = .ok steep.literal (store 2) := rfl
  have hfold : evaluateNotNull .exhausted steep.literal (store 2) = .ok (.factory steep) (store 2) := rfl
  have hline : DualPass.factories.run .exhausted (.call steep.literal steep.bindMethod [Tree.constant (.int 4)])
      (store 2) = .ok line.literal (store 3) := rfl
  exact .resolved (.invoked (.created hwhole) rfl hsteep) (isBinding_bindMethod steep) hreceiver hfold hline

/-- The slope is bound by a method at run time, and then the height by the pass. -/
theorem reached_within_line : declaration.Reached (.dual line) ∧
    ∃ id args, line = declaration.dual id args ∧ args.length = 2 ∧ declaration.ReadsInRange id args := by
  refine ⟨reached, ?_⟩
  rcases reached_within reached with ⟨k, hk, -⟩ | ⟨id, args, hd, hargs, hreads⟩
  · cases hk
  · exact ⟨id, args, Datum.dual.inj hd, hargs, hreads⟩

end Line

end Factory.Declaration

end DualForm
