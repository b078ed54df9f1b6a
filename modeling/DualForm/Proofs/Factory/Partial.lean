import DualForm.Proofs.Factory.Independence
import DualForm.Proofs.Factory.Resolution

/-!
# Factories that leave a tree half bound

A lambda may return a factory with its first parameter bound to a tree over the parameter of the lambda. The
second parameter is bound, and the dual evaluated, after the lambda has returned.

* `Factory.bindLast`, `Value.bindLast` — binds what is left of a factory and evaluates the dual.
* `Dual.bindLast`, `Dual.bindLastTree` — the same with what the dual returns, and with what its tree form
  returns, compiled and called.
* `PartialCall host V k build second p a` — a factory with two parameters, made with an expression builder that
  does not depend on its arguments, and a tree over one parameter to bind the first of them to.
* `HalfBound` — the lambdas that may be published as the tree form.

Principal results: `PartialCall.evaluate_triple` — evaluating the dual binds the value of the tree;
`PartialCall.tree_triple` — the tree form holds a factory bound to the value if the tree folds, and otherwise
to an accessor that evaluates it without the parameter; `tree_refines_function_partial` — so the tree form
returns what the dual does exactly if the tree evaluates without the parameter.
-/

namespace DualForm

open Act (Ensures)

/-! ## Binding what is left -/

/-- The factory with its first parameter bound. -/
def Factory.half (k : Factory) (second : FormalParam) (id : Nat) (arg : Argument) : Factory :=
  { k.rest second with id := id, bound := k.bound ++ [(k.next, arg)] }

/-- Binds the last parameter of a factory and evaluates the dual. -/
def Factory.bindLast (E : Engine) (k : Factory) (b y : Value) : Act Value := do
  let d ← Act.lift (Dual.expect k.kind (← k.bindArguments [.value b]))
  d.evaluate E y

/-- The same for a value that holds a factory. -/
def Value.bindLast (E : Engine) (v b y : Value) : Act Value :=
  match Value.factory? v with
  | some k => k.bindLast E b y
  | none => Act.fail (.typeMismatch "factory" (Value.ty v).text)

/-- Binds the factory that the dual returns on `v`, and evaluates the result. -/
def Dual.bindLast (E : Engine) (d : Dual) (v b y : Value) : Act Value := do
  Value.bindLast E (← d.evaluate E v) b y

/-- Binds the factory that the tree form of the dual returns on `v`, and evaluates the result. -/
def Dual.bindLastTree (E : Engine) (d : Dual) (v b y : Value) : Act Value := do
  Value.bindLast E (← (← E.tree d).compute E v) b y

section Partial

variable {host : Host} {I : Store → Prop} {V : Vocabulary} {ends : Prop} {k : Factory} {build : BuilderId}
  {second : FormalParam} {formals : List FormalParam} {a t : Expr} {p : Param} {d : Dual} {arg : Argument}
  {v w b y : Value} {cs : List Captured}

/-- A factory with two parameters, made with an expression builder that does not depend on its arguments, and
a tree over one parameter to bind the first of them to. Its value is no accessor by accident: no function
without parameters where none is expected. -/
structure PartialCall (host : Host) (V : Vocabulary) (k : Factory) (build : BuilderId) (second : FormalParam)
    (p : Param) (a : Expr) : Prop where
  unbound : k.bound = []
  builders : k.builders = .tree build
  pending : k.second = some second
  parametric : Parametric host V build [k.next, second] [false, false]
  operand : a.Over V [] p
  values : ∀ n v s f t, V.data v → evaluate (machine host n) [(p, v)] a s = .ok (.func f) t →
    k.next.ty.isFunc = true ∨ f.arity ≠ 0

/-- The parameters with what is bound to them in the end. -/
def Bindings.pair (k : Factory) (second : FormalParam) (arg : Argument) (b : Value) : Bindings :=
  [(k.next, arg), (second, .value b)]

/-- The dual that binding the last parameter makes. -/
def Factory.whole (k : Factory) (second : FormalParam) (arg : Argument) (b : Value) (id : Nat) : Dual :=
  ⟨id, k.kind, k.source, k.result, .bound k.builders (Bindings.pair k second arg b)⟩

/-- Binding the last parameter makes the dual, which is then evaluated. -/
theorem bindLast_half (hk : k.bound = []) (hs : k.second = some second) (id : Nat) (E : Engine) (s : Store) :
    Value.bindLast E (.factory (k.half second id arg)) b y s =
      (k.whole second arg b s.nextId).evaluate E y { s with nextId := s.nextId + 1 } := by
  have hparams : k.openParams = [k.next, second] := by simp [Factory.openParams, hs]
  have hbound : (k.half second id arg).bindArguments [.value b] s =
      .ok (.dual (k.whole second arg b s.nextId)) { s with nextId := s.nextId + 1 } := by
    unfold Factory.half
    rw [bindArguments_second hk hs, hparams]
    rfl
  refine (Act.bind_ok hbound).trans ?_
  rw [show Dual.expect (k.half second id arg).kind (.dual (k.whole second arg b s.nextId)) = .ok _ from
    expect_dual _]
  rfl

/-! ## The tree without its parameter -/

/-- A tree that does not read its parameter has none. -/
theorem Term.closed {N : Expr → Prop} {c : Bool} (h : Term V N (Reads p) c t) (ht : t.Unread p) :
    Term V N (fun _ _ => False) c t := by
  induction h with
  | param hp => exact (ht.here (by rw [hp.2.1])).elim
  | node parts hordinary hN hchildren _ ih =>
      refine .node parts hordinary hN hchildren fun q hq => ih q hq (ht.child ?_)
      rw [hchildren]
      exact List.mem_map_of_mem hq

section Unbound

variable (hV : V.Closed) (hhost : V.Respected host) (hcall : V.Callable) (hI : Stable I)
include hV hhost hcall hI

/-- What the tree returns without its parameter, it returns in every scope. -/
theorem Tree.Over.follows_unbound (h : t.Over V formals p) (ρ : Scope) (n : Nat) :
    Follows host I (Shared V) (evaluate (machine host n) [] t) fun E => evaluate E ρ t := by
  refine (Term.follows hV hhost hcall hI h t.filled_self t.filled_self ?_).imp fun _ _ => alike_false.1
  rintro _ _ u w _ rfl rfl
  exact Follows.congr (evaluate_unbound rfl) (fun _ => rfl) Follows.fail

/-- A tree that does not read its parameter returns the same without it. -/
theorem Tree.Over.follows_unread (h : t.Over V formals p) (ht : t.Unread p) (σ : Scope) (n : Nat) :
    Follows host I (Shared V) (evaluate (machine host n) σ t) fun E => evaluate E [] t :=
  (Term.follows hV hhost hcall hI (Term.closed h ht) t.filled_self t.filled_self
    fun _ _ _ _ h => h.elim).imp fun _ _ => alike_false.1

end Unbound

/-! ## Building -/

/-- **What is built from the same data computes the same.** -/
theorem Parametric.uniform (hV : V.Closed) (hhost : V.Respected host) (hcall : V.Callable) (hI : Stable I)
    {m : Nat} (h : Parametric host V build formals (List.replicate m false)) (hy : V.data y) :
    Builders.Uniform host I (fun _ => Shared V) (.tree build) formals y := by
  intro cs cs' hcs hagree
  have hcs' : cs'.map Captured.formal = formals := (Captured.agree_formals hagree).trans hcs
  refine (h cs cs' hcs hcs' I hI).bind fun l l' hcorresponds => ?_
  refine Matches.of_triples (compile_triple hI l) (compile_triple hI l') ?_
  rintro _ _ ⟨id, rfl⟩ ⟨id', rfl⟩ n
  cases n with
  | zero => exact Follows.exhausted
  | succ n =>
      obtain ⟨ps, u⟩ := l
      obtain ⟨ps', u'⟩ := l'
      by_cases hsingle : ∃ q, ps = [q]
      · obtain ⟨q, rfl⟩ := hsingle
        obtain ⟨q', rfl, hpaired⟩ := hcorresponds q rfl
        refine Follows.step (y := fun E => evaluate E [(q', y)] u') (call_closure id' q' u' y) ?_
        refine Follows.congr (call_closure id q u y n) (fun _ => rfl) ?_
        refine (hpaired.follows hV hhost hcall hI ?_ ((Bound.nil []).cons hy) n).imp
          fun _ _ h _ => (alike_false.1 h).2.symm
        rintro b _ _ ⟨i, i', hb, hc, hc'⟩ σ ρ m
        obtain rfl := List.eq_of_mem_replicate (List.mem_of_getElem? hb)
        obtain ⟨c, hc₀, hcc⟩ := forall₂_getElem? hagree hc'
        obtain rfl := Option.some.inj (hc₀.symm.trans hc)
        cases hcc with
        | value hvw =>
            exact Follows.congr (Captured.evaluate_read ..) (fun _ => Captured.evaluate_read ..)
              (Follows.pure (alike_false.2 hvw))
      · have hlength : [y].length ≠ (Lambda.mk ps u).arity := fun h =>
          hsingle (List.length_eq_one_iff.1 h.symm)
        show Follows host I _ (Func.apply host _ _ [y]) _
        unfold Func.apply
        rw [if_pos hlength]
        exact Follows.fail

/-! ## What is bound to the first parameter -/

section Arguments

variable (hV : V.Closed) (hhost : V.Respected host) (hcall : V.Callable) (ha : a.Over V formals p)
include hV hhost hcall ha

/-- What the tree returns without its parameter is what it computes with it. -/
theorem Returns.bound (hv : Returns host (fun _ => True) (fun E => evaluate E [] a) w) {ρ : Scope}
    (hw : Recurs host (fun E => evaluate E ρ a) v) : V.data w ∧ w = v := by
  obtain ⟨n, s, t, _, hrun⟩ := hv
  obtain ⟨w', t', hreach, _, hdata, rfl⟩ :=
    (ha.follows_unbound hV hhost hcall stable_true ρ n).result s w t trivial hrun s trivial
  obtain ⟨u, hu⟩ := hw.reaches s
  exact ⟨hdata, hreach.unique hu⟩

/-- What the pass binds is read as the same data every time. -/
theorem ArgumentOf.again (h : ArgumentOf host (fun _ => True) a arg) (formal : FormalParam) (hI : Stable I) :
    Argument.Agree host I (fun _ => Shared V) formal arg arg := by
  have hfollows : ∀ {J}, Stable J → ∀ n, Follows host J (Shared V) (evaluate (machine host n) [] a)
      fun E => evaluate E [] a := fun hJ => ha.follows_unbound hV hhost hcall hJ []
  cases h with
  | value _ hw =>
      obtain ⟨n, s, t, _, hrun⟩ := hw
      obtain ⟨_, _, _, _, hdata, rfl⟩ := (hfollows stable_true n).result s _ t trivial hrun s trivial
      exact Matches.pure ⟨hdata, rfl⟩
  | accessor body => exact absurd rfl (ha.lambdaless.here [] body)
  | subtree id l =>
      exact Matches.step_left rfl (get_deferred id a l)
        (Matches.step_right rfl (get_deferred id a l)
          (Matches.of_follows (x := fun E => evaluate E [] a) (hfollows hI) (hfollows hI)))

/-- Where the tree evaluates without its parameter, what the pass binds is read as its value. -/
theorem ArgumentOf.agree (h : ArgumentOf host (fun _ => True) a arg) (formal : FormalParam)
    (hv : Returns host (fun _ => True) (fun E => evaluate E [] a) v) :
    Argument.Agree host (fun _ => True) (fun _ => Shared V) formal (.value v) arg := by
  have hfollows : ∀ n, Follows host (fun _ => True) (Shared V) (evaluate (machine host n) [] a)
      fun E => evaluate E [] a := ha.follows_unbound hV hhost hcall stable_true []
  have hmatches := Matches.of_follows (x := fun E => evaluate E [] a) hfollows hfollows
  cases h with
  | value _ hw => exact Matches.pure (hmatches.related hv hw)
  | accessor body => exact absurd rfl (ha.lambdaless.here [] body)
  | subtree id l => exact Matches.step_right rfl (get_deferred id a l) (hmatches.of_returned hv)

omit hV hhost hcall in
/-- Where what the pass binds is read, the tree evaluates without its parameter. -/
theorem ArgumentOf.read (h : ArgumentOf host (fun _ => True) a arg)
    (hv : Returns host I (fun E => arg.get E) v) :
    ∃ w, Returns host (fun _ => True) (fun E => evaluate E [] a) w := by
  cases h with
  | value _ hw => exact ⟨_, hw⟩
  | accessor body => exact absurd rfl (ha.lambdaless.here [] body)
  | subtree id l =>
      exact ⟨v, (Returns.of_step (y := fun E => evaluate E [] a) rfl (get_deferred id a l) hv).anywhere⟩

end Arguments

/-! ## Duals bound to two arguments -/

/-- What is built has been built from the arguments as they were read. -/
theorem Returns.first_read {f : Func} {builders : Builders}
    (h : Returns host I (fun E => (Bindings.pair k second arg b).built host E builders) f) :
    ∃ v, Returns host I (fun E => arg.get E) v := by
  obtain ⟨n, s, t, hs, hrun⟩ := h
  obtain ⟨cs, s₁, hcs, _⟩ := Act.bind_eq_ok.1 hrun
  unfold Bindings.resolved Bindings.pair at hcs
  rw [List.mapM_cons] at hcs
  obtain ⟨c, s₂, hc, _⟩ := Act.bind_eq_ok.1 hcs
  replace hc : (do return (⟨k.next, .value (← arg.get (machine host n))⟩ : Captured)) s = .ok c s₂ :=
    (congrFun (arg.resolved_eq (machine host n) k.next) s).symm.trans hc
  obtain ⟨v, s₃, hv, _⟩ := Act.bind_eq_ok.1 hc
  exact ⟨v, .of_run hs hv⟩

namespace PartialCall

variable {arg' : Argument} {i i' n : Nat} {s s' t : Store} (hV : V.Closed) (hhost : V.Respected host)
  (hcall : V.Callable) (hc : PartialCall host V k build second p a) (hb : V.data b) (hy : V.data y)
include hV hhost hcall hc hb hy

/-- Building from two arguments that are read as the same data. -/
theorem built_matches (hI : Stable I)
    (harg : Argument.Agree host I (fun _ => Shared V) k.next arg arg') :
    Matches host I (Func.AgreeOn host I y) (fun E => (Bindings.pair k second arg b).built host E k.builders)
      fun E => (Bindings.pair k second arg' b).built host E k.builders := by
  rw [hc.builders]
  exact DualForm.built_matches (hc.parametric.uniform (m := 2) hV hhost hcall hI hy)
    (.cons ⟨rfl, harg⟩ (.cons ⟨rfl, Matches.pure ⟨hb, rfl⟩⟩ .nil))

/-- Building from an argument that is read as the same data every time keeps every stable invariant. -/
theorem built_kept (hI : Stable I) (harg : Argument.Agree host I (fun _ => Shared V) k.next arg arg) {f : Func}
    (hs : I s) (hf : (Bindings.pair k second arg b).built host (machine host n) k.builders s = .ok f t) : I t :=
  ((hc.built_matches hV hhost hcall hb hy hI harg).keeps n).ok hf hs

omit hV hhost hcall hc hb hy in
/-- Before the dual is evaluated for the first time, nothing has been published of it. -/
theorem standing_whole (hs : s.functions[i]? = none) :
    Standing host (fun _ => True) [k.whole second arg b i] s := by
  refine ⟨trivial, fun e he f hf => ?_⟩
  obtain rfl := List.mem_singleton.1 he
  cases hs.symm.trans hf

omit hV hhost hcall hc hb hy in
theorem accounts_whole : Accounts host (Standing host (fun _ => True) [k.whole second arg b i])
    (k.whole second arg b i) :=
  standing_accounts (fun _ _ _ => trivial) (List.mem_singleton.2 rfl) fun _ he _ => List.mem_singleton.1 he

/-- **Duals bound to arguments that are read as the same data return the same.** -/
theorem whole_agree (harg : Argument.Agree host (fun _ => True) (fun _ => Shared V) k.next arg arg')
    (hagain : ∀ I, Stable I → Argument.Agree host I (fun _ => Shared V) k.next arg arg)
    (hagain' : ∀ I, Stable I → Argument.Agree host I (fun _ => Shared V) k.next arg' arg')
    (hs : s.functions[i]? = none) (hs' : s'.functions[i']? = none)
    (hw : (k.whole second arg b i).evaluate (machine host n) y s = .ok w t) (hnone : ∀ f, w ≠ .func f) :
    ∃ t', Reaches host (fun E => (k.whole second arg' b i').evaluate E y) s' w t' := by
  have hstable : ∀ {d : Dual}, Stable (Standing host (fun _ => True) [d]) := standing_stable stable_true
  exact evaluate_agree_across (J := fun _ => True) (fun _ _ => trivial) (fun _ _ => trivial) hstable hstable
    rfl rfl accounts_whole accounts_whole
    (fun _ _ _ _ hs hf => hc.built_kept hV hhost hcall hb hy hstable (hagain _ hstable) hs hf)
    (fun _ _ _ _ _ _ hs hf => hc.built_kept hV hhost hcall hb hy hstable (hagain' _ hstable) hs hf)
    (hc.built_matches hV hhost hcall hb hy stable_true harg) (.of_run (standing_whole hs) hw) hnone
    (standing_whole hs')

/-- Evaluating the dual reads its arguments. -/
theorem whole_reads (hagain : ∀ I, Stable I → Argument.Agree host I (fun _ => Shared V) k.next arg arg)
    (hs : s.functions[i]? = none) (hw : (k.whole second arg b i).evaluate (machine host n) y s = .ok w t) :
    ∃ v, Returns host (Standing host (fun _ => True) [k.whole second arg b i]) (fun E => arg.get E) v := by
  have hstable : Stable (Standing host (fun _ => True) [k.whole second arg b i]) := standing_stable stable_true
  obtain ⟨_, _, _, _, _, _, _, f, hf⟩ := evaluate_form (v := y) hstable rfl accounts_whole
    (fun _ _ _ _ hs hf => hc.built_kept hV hhost hcall hb hy hstable (hagain _ hstable) hs hf)
    (.of_run (standing_whole hs) hw)
  exact hf.first_read

end PartialCall

/-! ## The two forms -/

/-- The lambdas that may be published as the tree form: those that return a factory bound to what is known of
the tree. -/
def HalfBound (host : Host) (k : Factory) (second : FormalParam) (p : Param) (a : Expr) (l : Lam) : Prop :=
  ∃ id arg, l = ⟨[p], (k.half second id arg).literal⟩ ∧ ArgumentOf host (fun _ => True) a arg

theorem ArgumentOf.anywhere {u : Expr} (h : ArgumentOf host I u arg) :
    ArgumentOf host (fun _ => True) u arg := by
  cases h with
  | value hfolds hw => exact .value hfolds hw.anywhere
  | accessor body id l => exact .accessor body id l
  | subtree id l hfolds hlambda => exact .subtree id l hfolds hlambda

/-- No pass has anything to do in a literal that holds a factory. -/
theorem settled_literal (k : Factory) : k.literal.Settled := by
  have hother : ∀ kind, k.signature.declares (.dual kind) = false := by
    intro kind
    unfold Factory.signature
    cases k.kind <;> rfl
  refine ⟨fun pass => Tree.everywhere_leaf ?_ rfl,
    Tree.everywhere_leaf (fun _ => rfl) rfl⟩
  cases pass with
  | inlining kind => exact hother kind
  | _ => rfl

theorem evaluate_bindFirstExpr (E : Engine) (σ : Scope) : evaluate E σ (k.bindFirstExpr a) = (do
    k.bindFirstMethod.invoke E (some (.factory k)) [← evaluate E σ a]) := by
  simp [evaluate, evaluateAll, Factory.bindFirstExpr, Factory.literal]

namespace PartialCall

variable (hV : V.Closed) (hhost : V.Respected host) (hcall : V.Callable)
  (hc : PartialCall host V k build second p a)
include hV hhost hcall hc

/-- What is known of the tree: its value if it folds, and otherwise how to evaluate it without the
parameter. -/
theorem argument_triple {err P : Store → Prop} (hP : Stable P) (herr : ∀ s, P s → err s)
    (hends : ends → a.folds = true → ∃ w, Returns host (fun _ => True) (fun E => evaluate E [] a) w) :
    Triple host ends err P (fun arg s => ArgumentOf host (fun _ => True) a arg ∧ P s)
      fun E => resolvedArgument E a := by
  have hfollows : ∀ {J}, Stable J → ∀ n, Follows host J (Shared V) (evaluate (machine host n) [] a)
      fun E => evaluate E [] a := fun hJ => hc.operand.follows_unbound hV hhost hcall hJ []
  refine Triple.congr (y := fun E => bindingArgument E a) (fun E => ?_) ?_
  · unfold resolvedArgument
    rw [hc.operand.settled.run, pure_bind]
  · refine (bindingArgument_triple hP herr (fun n => (hfollows hP n).keeps) fun h hfolds s _ => ?_).imp
      (fun _ hs => hs) fun _ _ h => ⟨h.1.anywhere, h.2⟩
    obtain ⟨w, n, s₀, t₀, _, hrun⟩ := hends h hfolds
    obtain ⟨w', t, hreach, _⟩ := (hfollows stable_true n).result s₀ w t₀ trivial hrun s trivial
    exact ⟨w', t, hreach⟩

variable (ho : d.origin = .lambda ⟨[p], k.bindFirstExpr a⟩)
include ho

/-- **Evaluating the dual binds the value of the tree.** -/
theorem evaluate_triple {good : Lam → Prop} (hv : V.data v) :
    Triple host False (Recorded good p d ⟨[p], k.bindFirstExpr a⟩)
      (Recorded good p d ⟨[p], k.bindFirstExpr a⟩)
      (fun w s => (∃ id v₁, w = .factory (k.half second id (.value v₁)) ∧ V.data v₁ ∧
        Recurs host (fun E => evaluate E [(p, v)] a) v₁) ∧ Recorded good p d ⟨[p], k.bindFirstExpr a⟩ s)
      fun E => d.evaluate E v := by
  refine (function_recorded ho fun _ hs => hs).bind fun f => Triple.assuming (fun s hs => hs.1) ?_
  rintro ⟨id, rfl⟩
  refine call_triple id (fun s hs => hs.2) (Triple.imp ?_ (fun s hs => hs.2) fun _ _ h => h)
  refine Triple.congr (fun E => evaluate_bindFirstExpr E _) ?_
  refine (recurring_triple (fun I hI n => hc.operand.follows hV hhost hcall hI (fun _ => hv) n)
    recorded_stable (fun _ hs => hs) False.elim).bind fun v₁ => Triple.assuming (fun s hs => hs.1) fun hv₁ => ?_
  have hvalue : Argument.ofRuntime v₁ k.next.ty = .value v₁ := by
    obtain ⟨t, N, hN⟩ := hv₁.2.reaches .initial
    cases v₁ with
    | func f =>
        refine if_neg fun h => ?_
        rcases hc.values N v _ f t hv (hN N (Nat.le_refl _)) with hty | harity
        · exact h.2 hty
        · exact harity h.1
    | _ => rfl
  refine Triple.congr (fun E => invoke_bind rfl rfl) ?_
  refine (first_triple hc.pending recorded_stable _).imp (fun s hs => hs.2) ?_
  rintro w s ⟨⟨id', rfl⟩, hs⟩
  refine ⟨⟨id', v₁, ?_, hv₁⟩, hs⟩
  rw [hvalue]
  rfl

/-- **The tree form is a lambda that returns a factory bound to what is known of the tree.** -/
theorem tree_triple
    (hends : ends → a.folds = true → ∃ w, Returns host (fun _ => True) (fun E => evaluate E [] a) w) :
    Triple host ends (Recorded (HalfBound host k second p a) p d ⟨[p], k.bindFirstExpr a⟩)
      (Recorded (HalfBound host k second p a) p d ⟨[p], k.bindFirstExpr a⟩)
      (fun l s => HalfBound host k second p a l ∧
        Recorded (HalfBound host k second p a) p d ⟨[p], k.bindFirstExpr a⟩ s) fun E => E.tree d := by
  have hstay : ∀ (pass : DualPass) (u : Expr), Triple host ends
      (Recorded (HalfBound host k second p a) p d ⟨[p], k.bindFirstExpr a⟩)
      (fun s => (∃ id arg, u = (k.half second id arg).literal ∧ ArgumentOf host (fun _ => True) a arg) ∧
        Recorded (HalfBound host k second p a) p d ⟨[p], k.bindFirstExpr a⟩ s)
      (fun u s => (∃ id arg, u = (k.half second id arg).literal ∧ ArgumentOf host (fun _ => True) a arg) ∧
        Recorded (HalfBound host k second p a) p d ⟨[p], k.bindFirstExpr a⟩ s) fun E => pass.run E u := by
    intro pass u
    refine Triple.assuming (fun s hs => hs.1) ?_
    rintro ⟨id, arg, rfl, harg⟩
    exact Triple.congr (fun _ => (settled_literal _).run) (Triple.pure fun s hs => hs)
  refine Triple.step (y := fun E => d.forceTree host E) rfl (fun _ => rfl) (fun _ hs => hs)
    (Triple.publishOnce (Q := fun l s => HalfBound host k second p a l ∧
      Recorded (HalfBound host k second p a) p d ⟨[p], k.bindFirstExpr a⟩ s) ?_ ?_ ?_ ?_)
  · exact fun s l hs hl => ⟨hs.tree l hl, hs⟩
  · refine Triple.congr (y := fun E => rewriteLambda E ⟨[p], k.bindFirstExpr a⟩) (fun E => ?_) ?_
    · unfold Dual.initialTree
      rw [ho]
    refine ((rewriteLambda_triple (fun _ hs => hs) (fun _ _ hs => hs.2) (fun _ _ hs => hs.2)
      (fun _ _ hs => hs.2) ?_ (hstay .combinators) (hstay (.inlining .specification))
      (hstay (.inlining .projection))).imp (fun s hs => hs.1) ?_)
    · refine Triple.congr (fun E => (run_binding (isBinding_bindFirstMethod k) k.literal [a]).trans
        (bindingRule_literal k k.signature [a])) ?_
      refine Triple.congr (fun E => by rw [List.mapM_cons, List.mapM_nil, bind_assoc]) ?_
      refine (hc.argument_triple hV hhost hcall recorded_stable (fun _ hs => hs) hends).bind fun arg =>
        Triple.assuming (fun s hs => hs.1) fun harg => ?_
      refine Triple.congr (fun E => by rw [pure_bind, pure_bind]) ?_
      refine ((first_triple hc.pending recorded_stable arg).imp (fun s hs => hs.2) fun _ _ h => h).bind
        fun v => Triple.assuming (fun s hs => hs.1) ?_
      rintro ⟨id, rfl⟩
      exact Triple.pure fun s hs => ⟨⟨id, arg, rfl, harg⟩, hs.2⟩
    · rintro _ s ⟨u, rfl, ⟨id, arg, rfl, harg⟩, hs⟩
      exact ⟨⟨id, arg, rfl, harg⟩, hs⟩
  · exact fun s l l' hl hl' => ⟨hl.2.tree l' hl', hl.2⟩
  · exact fun s l hl _ => ⟨hl.1, hl.2.writeTree hl.2.known fun _ => hl.1⟩

end PartialCall

/-- A compiled lambda over a literal returns what it holds. -/
theorem compute_literal (ty : Ty) (n : Nat) (s : Store) :
    Lambda.compute (machine host (n + 1)) ⟨[p], .literal w ty⟩ v s = .ok w { s with nextId := s.nextId + 1 } :=
  rfl

/-- **A factory that leaves the tree half bound.** Take a factory with two parameters, made with an expression
builder that does not depend on its arguments, and a projection whose lambda returns the factory with its
first parameter bound to a tree over the parameter of the lambda. Suppose that evaluating the projection,
binding the factory it returns to a second value, and evaluating that returns something that is no function.

Then, whatever is done with the projection in between, it has a tree form, a lambda over a literal that holds
a factory with one parameter left. Doing the same with what the tree form returns, compiled and called,
returns the same if the tree evaluates without the parameter, and nothing otherwise: the literal keeps what
is known of the tree, but not the value of the parameter. It does evaluate without the parameter if it does
not read it. -/
theorem tree_refines_function_partial (hV : V.Closed) (hhost : V.Respected host) (hcall : V.Callable)
    (hc : PartialCall host V k build second p a) {s s' t : Store} {n : Nat}
    (h : MadeAlone host V .projection p (k.bindFirstExpr a) d s)
    (h' : MadeAlone host V .projection p (k.bindFirstExpr a) d s') (hv : V.data v) (hb : V.data b)
    (hy : V.data y) (hw : d.bindLast (machine host n) v b y s = .ok w t) (hnone : ∀ f, w ≠ .func f) :
    (∃ k' t', Reaches host (fun E => E.tree d) s' ⟨[p], Factory.literal k'⟩ t' ∧ k'.openParams = [second]) ∧
      ((∃ w₀, Returns host (fun _ => True) (fun E => evaluate E [] a) w₀) →
        ∃ t', Reaches host (fun E => d.bindLastTree E v b y) s' w t') ∧
      (∀ m w' t', d.bindLastTree (machine host m) v b y s' = .ok w' t' →
        ∃ w₀, Returns host (fun _ => True) (fun E => evaluate E [] a) w₀) ∧
      (a.Unread p → ∃ w₀, Returns host (fun _ => True) (fun E => evaluate E [] a) w₀) := by
  have hrecorded : ∀ {s}, MadeAlone host V .projection p (k.bindFirstExpr a) d s →
      d.origin = .lambda ⟨[p], k.bindFirstExpr a⟩ ∧
        Recorded (HalfBound host k second p a) p d ⟨[p], k.bindFirstExpr a⟩ s := fun h =>
    h.recorded (fun _ ho => (hc.tree_triple hV hhost hcall ho False.elim).keeps) fun _ ho n _ hv =>
      (hc.evaluate_triple hV hhost hcall ho hv).keeps n
  obtain ⟨ho, hs⟩ := hrecorded h
  obtain ⟨_, hs'⟩ := hrecorded h'
  obtain ⟨_, s₁, hw₁, hrest⟩ := Act.bind_eq_ok.1 hw
  obtain ⟨⟨id, v₁, rfl, hv₁, hrecurs⟩, hs₁⟩ := (hc.evaluate_triple hV hhost hcall ho hv).ok n s _ s₁ hs hw₁
  rw [bindLast_half hc.unbound hc.pending] at hrest
  obtain ⟨u, N, hN⟩ := hrecurs.reaches .initial
  have hfolding : a.folds = true → ∃ w, Returns host (fun _ => True) (fun E => evaluate E [] a) w :=
    fun hfolds => ⟨v₁, N, _, u, trivial, (congrFun (evaluate_of_folds hfolds) _).trans (hN N (Nat.le_refl _))⟩
  have htree : Triple host True _ _ _ fun E => E.tree d :=
    hc.tree_triple hV hhost hcall ho fun _ => hfolding
  refine ⟨?_, ?_, ?_, ?_⟩
  · obtain ⟨_, t₁, hreach, ⟨id', arg, rfl, _⟩, _⟩ := htree.arrives trivial hs'
    exact ⟨k.half second id' arg, t₁, hreach, rfl⟩
  · rintro ⟨w₀, hw₀⟩
    obtain ⟨_, t₁, hreach, ⟨id', arg, rfl, harg⟩, ht₁⟩ := htree.arrives trivial hs'
    obtain ⟨_, rfl⟩ := hw₀.bound hV hhost hcall hc.operand hrecurs
    have hvalue : ∀ I, Stable I → Argument.Agree host I (fun _ => Shared V) k.next (.value w₀) (.value w₀) :=
      fun _ _ => Matches.pure ⟨hv₁, rfl⟩
    -- In both runs the last number given out has no function form yet.
    have hempty : { s₁ with nextId := s₁.nextId + 1 }.functions[s₁.nextId]? = none :=
      hs₁.fresh.functions _ (Nat.le_refl _)
    have hempty' : { t₁ with nextId := t₁.nextId + 2 }.functions[t₁.nextId + 1]? = none :=
      ht₁.fresh.functions _ (Nat.le_succ _)
    obtain ⟨t', M, hM⟩ : ∃ t', Reaches host (fun E => (k.whole second arg b (t₁.nextId + 1)).evaluate E y)
        { t₁ with nextId := t₁.nextId + 2 } w t' :=
      hc.whole_agree hV hhost hcall hb hy (harg.agree hV hhost hcall hc.operand _ hw₀)
        hvalue (fun _ hI => harg.again hV hhost hcall hc.operand _ hI)
        hempty hempty' hrest hnone
    refine ⟨t', hreach.bind (f := fun E l => do Value.bindLast E (← l.compute E v) b y) ⟨M + 1, fun m hm => ?_⟩⟩
    obtain ⟨m, rfl⟩ : ∃ m', m = m' + 1 := ⟨m - 1, by omega⟩
    refine (Act.bind_ok (compute_literal _ m t₁)).trans ?_
    exact (bindLast_half hc.unbound hc.pending ..).trans (hM (m + 1) (by omega))
  · intro m w' t' hrun
    obtain ⟨_, t₁, hl, hrun⟩ := Act.bind_eq_ok.1 hrun
    obtain ⟨⟨id', arg, rfl, harg⟩, ht₁⟩ := htree.ok m s' _ t₁ hs' hl
    cases m with
    | zero => cases hl
    | succ m =>
        replace hrun := (Act.bind_ok (compute_literal _ m t₁)).symm.trans hrun
        rw [bindLast_half hc.unbound hc.pending] at hrun
        obtain ⟨_, hread⟩ := hc.whole_reads hV hhost hcall hb hy
          (fun _ hI => harg.again hV hhost hcall hc.operand _ hI)
          (s := { t₁ with nextId := t₁.nextId + 2 }) (ht₁.fresh.functions _ (Nat.le_succ _)) hrun
        exact harg.read hc.operand hread
  · intro hunread
    obtain ⟨w₀, t₀, hreach, _⟩ := (hc.operand.follows_unread hV hhost hcall stable_true hunread _ N).result
      _ v₁ u trivial (hN N (Nat.le_refl _)) .initial trivial
    exact ⟨w₀, .of_reaches trivial hreach⟩

end Partial

/-! ## Two trees to bind -/

namespace Halved

open Scaled (k m p registry factory vocabulary)

/-- `2 * 3`. -/
def six : Expr := .operation .mul (Tree.constant (.int 2)) (Tree.constant (.int 3))

/-- The projection `p => factory.bind_first(a)`. -/
def dual (a : Expr) : Dual :=
  ⟨2, .projection, .int, factory.bindFirstMethod.result, .lambda ⟨[p], factory.bindFirstExpr a⟩⟩

theorem madeAlone (a : Expr) :
    MadeAlone registry.host vocabulary .projection p (factory.bindFirstExpr a) (dual a) (Scaled.store 3) :=
  .make (.start (Scaled.fresh 2)) ⟨rfl, Nat.lt_succ_self 1, rfl⟩ rfl

theorem over_constant (n : Int64) : (Tree.constant (.int n)).Over vocabulary [] p :=
  .node [] (.basic (.literal _ rfl)) ⟨rfl, fun _ _ _ _ h => by cases h⟩ rfl (by simp)

theorem over_product {a b : Expr} (ha : a.Over vocabulary [] p) (hb : b.Over vocabulary [] p) :
    Tree.Over vocabulary [] p (.operation .mul a b) :=
  Scaled.term_operation ⟨rfl, fun _ _ _ _ h => by cases h⟩ ha hb

theorem over_six : six.Over vocabulary [] p := over_product (over_constant 2) (over_constant 3)

theorem over_twice : Scaled.twice.Over vocabulary [] p :=
  over_product (.param ⟨rfl, rfl, rfl⟩) (over_constant 2)

theorem unread_six : six.Unread p :=
  (Tree.substitute_eq_self_iff (a := Tree.constant (.int 1)) fun _ h => by cases h).1 rfl

theorem partialCall {a : Expr} (ha : a.Over vocabulary [] p) :
    PartialCall registry.host vocabulary factory 0 m p a where
  unbound := rfl
  builders := rfl
  pending := rfl
  parametric := Scaled.builds.parametric <|
    Scaled.term_operation (Scaled.apart rfl fun _ _ h => by cases h) (.param .own) <|
      Scaled.term_operation (Scaled.apart rfl fun _ _ h => by cases h) (.param (.argument rfl))
        (.param (.argument rfl))
  operand := ha
  values n v s f t hv hf := by
    have hfollows : Follows registry.host (fun _ => True) (Shared vocabulary)
        (evaluate (machine registry.host n) [(p, v)] a) fun E => evaluate E [(p, v)] a :=
      ha.follows Scaled.closed (Scaled.respected _) Scaled.callable stable_true (fun _ => hv) n
    obtain ⟨_, _, _, _, hdata, _⟩ := hfollows.result s _ t trivial hf s trivial
    cases hdata

/-- Bound to `6` and to `5`, the factory makes `x => x + 6 * 5`. -/
theorem bindLast_one {a : Expr} (ha : ∀ E, evaluate E [(p, .int 3)] a = pure (.int 6)) :
    ∃ t, (dual a).bindLast (machine registry.host 6) (.int 3) (.int 5) (.int 1) (Scaled.store 3) =
      .ok (.int 31) t := by
  have hdual : (machine registry.host 6).function (dual a) (Scaled.store 3) = .ok _ _ :=
    function_first rfl Std.HashMap.getElem?_empty 5
  generalize hs₁ : (Slot.function (dual a)).write _ _ = s₁ at hdual
  have hnext : s₁.nextId = 4 := by rw [← hs₁]; rfl
  have hapart : (dual a).id ≠ 5 := fun h => by cases h
  have hnone : s₁.functions[5]? = none := by
    rw [← hs₁, functions_write, if_neg hapart]
    exact Std.HashMap.getElem?_empty
  have hhalf : evaluate (machine registry.host 5) [(p, .int 3)] (factory.bindFirstExpr a) s₁ =
      .ok (.factory (factory.half m s₁.nextId (.value (.int 6)))) { s₁ with nextId := s₁.nextId + 1 } := by
    rw [evaluate_bindFirstExpr, ha]
    rfl
  have hevaluate : (dual a).evaluate (machine registry.host 6) (.int 3) (Scaled.store 3) = .ok _ _ :=
    (Act.bind_ok hdual).trans hhalf
  obtain ⟨t, ht⟩ : ∃ t, (factory.whole m (.value (.int 6)) (.int 5) 5).evaluate (machine registry.host 6)
      (.int 1) { s₁ with nextId := 6 } = .ok (.int 31) t :=
    ⟨_, (evaluate_first (.int 1) hnone rfl hnone).trans rfl⟩
  refine ⟨t, (Act.bind_ok hevaluate).trans ((bindLast_half rfl rfl ..).trans ?_)⟩
  rw [← ht, hnext]

end Halved

/-- The theorem at two trees that are `6` when the parameter is `3`. Bound to `2 * 3`, the factory that the tree
form returns makes what the other one does. Bound to `p * 2`, it makes a dual that never returns anything. -/
theorem tree_refines_function_partial_product :
    (∃ s t, (Halved.dual Halved.six).bindLast (machine Scaled.registry.host 6) (.int 3) (.int 5) (.int 1)
        (Scaled.store 3) = .ok (.int 31) s ∧
      Reaches Scaled.registry.host (fun E => (Halved.dual Halved.six).bindLastTree E (.int 3) (.int 5) (.int 1))
        (Scaled.store 3) (.int 31) t) ∧
    (∃ s, (Halved.dual Scaled.twice).bindLast (machine Scaled.registry.host 6) (.int 3) (.int 5) (.int 1)
        (Scaled.store 3) = .ok (.int 31) s) ∧
    ∀ n w t, (Halved.dual Scaled.twice).bindLastTree (machine Scaled.registry.host n) (.int 3) (.int 5) (.int 1)
      (Scaled.store 3) ≠ .ok w t := by
  have hpartial : ∀ {a : Expr}, a.Over Scaled.vocabulary [] Scaled.p →
      (∀ E, evaluate E [(Scaled.p, .int 3)] a = pure (.int 6)) → _ := fun ha hvalue =>
    tree_refines_function_partial Scaled.closed (Scaled.respected Scaled.registry.host) Scaled.callable
      (Halved.partialCall ha) (Halved.madeAlone _) (Halved.madeAlone _) (v := .int 3) (b := .int 5)
      (y := .int 1) rfl rfl rfl (Halved.bindLast_one hvalue).choose_spec (fun _ h => by cases h)
  obtain ⟨s, hs⟩ := Halved.bindLast_one (a := Halved.six) fun _ => rfl
  have hsix := hpartial Halved.over_six fun _ => rfl
  obtain ⟨t, ht⟩ := hsix.2.1 (hsix.2.2.2 Halved.unread_six)
  refine ⟨⟨s, t, hs, ht⟩, Halved.bindLast_one fun _ => rfl, fun n w t hw => ?_⟩
  obtain ⟨w₀, m, s₀, t₀, _, hread⟩ := (hpartial Halved.over_twice fun _ => rfl).2.2.1 n w t hw
  cases hread

end DualForm
