import DualForm.Host.Registry
import DualForm.Proofs.Factory.Agreement
import DualForm.Proofs.Factory.Binding
import DualForm.Proofs.Rewriting.Removal

/-!
# What resolving a binding call has to do with evaluating it

* `BindingCall k formals as t` — `t` binds the leading parameters `formals` of the literal factory `k` to
  the arguments `as`, as many as the method takes.
* `Resolvable host I a` — the argument `a` evaluates whenever it has evaluated once, and what the pass
  makes of it does so too.
* `ArgumentOf host I u arg` — what is bound for the rewritten argument `u`.
* `Consistent host I R formal a` — by the value it evaluates to and the type of the parameter, `a` is an
  accessor if it is one by its shape.

Principal results: `evaluate_call_triple`, `resolve_call_triple` — what the call binds by values, and by
trees; `Consistent.agree` — values that agree are read from both; `resolve_refines_evaluate` — so the dual
made by resolving the call returns what the one made by evaluating it does. `consistent_of_closed`,
`consistent_of_accessor`, `consistent_of_lambda` — arguments over host code are consistent;
`BindingCall.resolvable` — binding calls may be arguments in turn.
-/

namespace DualForm

open Template (Place Stands)

section Resolution

variable {host : Host} {I : Store → Prop} {R : FormalParam → Value → Value → Prop} {ends : Prop}
  {err : Store → Prop} {k : Factory} {formals : List FormalParam} {formal : FormalParam}
  {as : List Expr} {args : List Argument} {a t u : Expr} {arg : Argument} {b v w : Value} {E : Engine}
  {σ : Scope} {m : Method Invoker}

/-! ## Binding calls -/

/-- Calls of a method of a literal factory that binds leading parameters, with as many arguments as it
takes. -/
inductive BindingCall (k : Factory) : List FormalParam → List Expr → Expr → Prop
  | bind {as : List Expr} : as.length = k.arity → BindingCall k k.openParams as (k.bindExpr as)
  | bindFirst {second : FormalParam} (a : Expr) : k.second = some second →
      BindingCall k [k.next] [a] (k.bindFirstExpr a)

/-- What is left of a factory when it is bound: a dual, or a factory. -/
inductive BoundTo (k : Factory) (formals : List FormalParam) (args : List Argument) : Value → Prop
  | dual {d : Dual} : formals = k.openParams →
      d.origin = .bound k.builders (k.bound ++ formals.zip args) → BoundTo k formals args (.dual d)
  | factory (k' : Factory) : formals ≠ k.openParams → BoundTo k formals args (.factory k')

/-- The method binds these parameters to as many arguments. -/
structure Factory.BindsBy (k : Factory) (m : Method Invoker) (formals : List FormalParam) : Prop where
  invoker : m.invoker = .bind
  params : m.params = formals.map FormalParam.ty
  binding : isBinding m = true
  bound : ∀ args : List Argument, args.length = formals.length → ∀ s, ∃ b,
    k.bindArguments args s = .ok b { s with nextId := s.nextId + 1 } ∧ BoundTo k formals args b ∧
      Value.ty b = m.result

theorem bindsBy_bind (k : Factory) : k.BindsBy k.bindMethod k.openParams where
  invoker := rfl
  params := rfl
  binding := isBinding_bindMethod k
  bound _ h s := ⟨_, congrFun (bindArguments_all h) s, .dual rfl rfl, rfl⟩

theorem bindsBy_bindFirst {second : FormalParam} (hs : k.second = some second) :
    k.BindsBy k.bindFirstMethod [k.next] where
  invoker := rfl
  params := rfl
  binding := isBinding_bindFirstMethod k
  bound args h s := by
    obtain ⟨a, rfl⟩ := List.length_eq_one_iff.1 h
    refine ⟨_, congrFun (bindArguments_first hs a) s, .factory _ fun h => ?_, ?_⟩
    · simp [Factory.openParams, hs] at h
    · simp [Value.ty, Factory.signature, Factory.openParams, Factory.rest, Factory.bindFirstMethod, hs]

theorem BindingCall.method (h : BindingCall k formals as t) :
    ∃ m, t = .call k.literal m as ∧ k.BindsBy m formals ∧ as.length = formals.length := by
  cases h with
  | bind hlength => exact ⟨_, rfl, bindsBy_bind k, hlength⟩
  | bindFirst a hs => exact ⟨_, rfl, bindsBy_bindFirst hs, rfl⟩

/-- **Evaluating the call binds the values of the arguments.** -/
theorem evaluate_call_triple (hm : k.BindsBy m formals) (hlength : as.length = formals.length)
    (hI : Stable I) {S : Expr → Value → Prop}
    (hS : ∀ a ∈ as, Triple host ends err I (fun w s => S a w ∧ I s) fun E => evaluate E σ a) :
    Triple host ends err I (fun b s => (∃ ws, List.Forall₂ S as ws ∧
      BoundTo k formals (ws.zipWith Argument.ofRuntime (formals.map FormalParam.ty)) b ∧
        Value.ty b = m.result) ∧ I s)
      fun E => evaluate E σ (.call k.literal m as) := by
  refine Triple.congr (y := fun E => do
    m.invoke E (some (.factory k)) (← as.mapM (evaluate E σ))) (fun E => ?_) ?_
  · rw [← evaluateAll_eq_mapM]
    rfl
  refine (Triple.mapM_mem as hS).bind fun ws => Triple.assuming (fun s hs => hs.1) fun hws => ?_
  have hcount : ws.length = formals.length := hws.length_eq.symm.trans hlength
  refine Triple.congr (fun E => invoke_bind hm.invoker ?_) (Triple.of_run fun s hs => ?_)
  · rw [hm.params, List.length_map, hcount]
  · obtain ⟨b, hrun, hb, hty⟩ := hm.bound (ws.zipWith Argument.ofRuntime m.params)
      (by rw [List.length_zipWith, hm.params, List.length_map, hcount, Nat.min_self]) s
    refine ⟨b, _, hrun, ⟨ws, hws, ?_, hty⟩, hI.beside (beside_identity s) hs.2⟩
    rwa [hm.params] at hb

/-- **Resolving the call binds what is known of the arguments.** -/
theorem resolve_call_triple (hm : k.BindsBy m formals) (hlength : as.length = formals.length)
    (hI : Stable I) {S : Expr → Argument → Prop}
    (hS : ∀ a ∈ as, Triple host ends err I (fun x s => S a x ∧ I s) fun E => resolvedArgument E a) :
    Triple host ends err I (fun u s => (∃ args b, u = .literal b (Value.ty b) ∧ List.Forall₂ S as args ∧
      BoundTo k formals args b ∧ Value.ty b = m.result) ∧ I s)
      fun E => DualPass.factories.run E (.call k.literal m as) := by
  refine Triple.congr (fun E => (run_binding hm.binding k.literal as).trans
    (bindingRule_literal k k.signature as)) ?_
  refine (Triple.mapM_mem as hS).bind fun args => Triple.assuming (fun s hs => hs.1) fun hargs => ?_
  refine Triple.of_run fun s hs => ?_
  obtain ⟨b, hrun, hb, hty⟩ := hm.bound args (hargs.length_eq.symm.trans hlength) s
  exact ⟨_, _, Act.bind_ok hrun, ⟨args, b, rfl, hargs, hb, hty⟩, hI.beside (beside_identity s) hs.2⟩

/-! ## Arguments -/

/-- The argument evaluates whenever it has evaluated once, and what the pass makes of it does so too. -/
structure Resolvable (host : Host) (I : Store → Prop) (a : Expr) : Prop where
  again : Matches host I (fun _ _ => True) (fun E => evaluate E [] a) fun E => evaluate E [] a
  pass : Triple host True (fun _ => True) I (fun u s => (Matches host I (fun _ _ => True)
      (fun E => evaluate E [] a) (fun E => evaluate E [] u) ∧
    ∀ n, (evaluate (machine host n) [] u).Keeps I) ∧ I s) fun E => DualPass.factories.run E a

/-- The pass leaves an argument without binding calls as it is. -/
theorem resolvable_of_clear (ha : a.Clear .factories)
    (h : Matches host I (fun _ _ => True) (fun E => evaluate E [] a) fun E => evaluate E [] a) :
    Resolvable host I a :=
  ⟨h, Triple.congr (fun _ => run_clear (by simp) ha) (Triple.pure fun _ hs => ⟨⟨h, h.keeps⟩, hs⟩)⟩

theorem returns_of_clear (ha : a.Clear .factories)
    (h : Returns host I (fun E => DualPass.factories.run E a) u) : u = a := by
  obtain ⟨n, s, t, _, hu⟩ := h
  change DualPass.factories.run _ a s = _ at hu
  rw [run_clear (by simp) ha] at hu
  exact (Act.pure_eq_ok.1 hu).1.symm

/-- What is bound for a rewritten argument. -/
inductive ArgumentOf (host : Host) (I : Store → Prop) : Expr → Argument → Prop
  | value {u : Expr} {w : Value} : u.folds = true → Returns host I (fun E => evaluate E [] u) w →
      ArgumentOf host I u (.value w)
  | accessor (body : Expr) (id : Nat) (l : Option Lam) :
      ArgumentOf host I (.lambda [] body) (.deferred ⟨⟨id, 0, .closure ⟨[], body⟩ []⟩, l, none⟩)
  | subtree {u : Expr} (id : Nat) (l : Option Lam) : u.folds = false → (∀ body, u ≠ .lambda [] body) →
      ArgumentOf host I u (.deferred ⟨⟨id, 0, .closure ⟨[], u⟩ []⟩, l, none⟩)

/-- A tree that folds is bound by its value. -/
theorem ArgumentOf.returns (h : ArgumentOf host I u arg) (hfolds : u.folds = true) :
    ∃ w, Returns host I (fun E => evaluate E [] u) w := by
  cases h with
  | value _ hw => exact ⟨_, hw⟩
  | accessor => cases hfolds
  | subtree _ _ hnone _ => rw [hfolds] at hnone; cases hnone

/-- A tree that folds contains no call. -/
theorem clear_of_folds (h : t.folds = true) : t.Clear .factories := by
  induction t using Tree.nodewise with
  | literal | staticMember => exact Tree.everywhere_leaf rfl rfl
  | member target m ih =>
      refine Tree.everywhere_single rfl rfl ?_
      exact ih h
  | param | staticCall | call | binary | unary | lambda | invoke | conditional => cases h

/-- Binding a rewritten argument. -/
theorem bindingArgument_triple (hI : Stable I) (herr : ∀ s, I s → err s)
    (hkeeps : ∀ n, (evaluate (machine host n) [] u).Keeps I)
    (hends : ends → u.folds = true → ∀ s, I s → ∃ w t, Reaches host (fun E => evaluate E [] u) s w t) :
    Triple host ends err I (fun arg s => ArgumentOf host I u arg ∧ I s)
      fun E => bindingArgument E u := by
  unfold bindingArgument
  cases hfolds : u.folds with
  | true =>
      refine Triple.congr (fun E => by rw [tryEvaluate_eq_evaluate hfolds [], bind_assoc]) ?_
      refine Triple.bind (Q := fun w s => Returns host I (fun E => evaluate E [] u) w ∧ I s) ?_ fun w =>
        Triple.congr (fun E => pure_bind ..) (Triple.pure fun s hs => ⟨.value hfolds hs.1, hs.2⟩)
      refine ⟨fun n s w t hs hw => ⟨.of_run hs hw, (hkeeps n).ok hw hs⟩, fun n s e t hs he => ?_,
        fun h s hs => hends h hfolds s hs⟩
      have hafter := (hkeeps n).after s hs
      rw [Act.final_error he] at hafter
      exact herr t hafter
  | false =>
      by_cases hlambda : ∃ body, u = .lambda [] body
      · obtain ⟨body, rfl⟩ := hlambda
        refine Triple.congr (y := fun _ => do return .deferred ⟨← compile ⟨[], body⟩, some ⟨[], body⟩, none⟩)
          (fun E => ?_) ?_
        · rw [tryEvaluate_of_not_folds hfolds, pure_bind]
          simp [Deferred.ofLambda, Compiled.ofLambda]
        · refine (compile_triple hI _).imp (fun _ hs => hs) (fun _ _ h => h) |>.bind fun f =>
            Triple.pure ?_
          rintro s ⟨⟨id, rfl⟩, hs⟩
          exact ⟨.accessor body id _, hs⟩
      · refine Triple.congr (y := fun _ => do return .deferred ⟨← compile ⟨[], u⟩, some ⟨[], u⟩, none⟩)
          (fun E => ?_) ?_
        · rw [tryEvaluate_of_not_folds hfolds, pure_bind]
          have hother : ∀ body, u ≠ .lambda [] body := fun body h => hlambda ⟨body, h⟩
          dsimp only
          split
          · exact absurd rfl (hother _)
          · simp [Deferred.ofSubtree, Compiled.ofLambda]
        · refine (compile_triple hI _).bind fun f => Triple.pure ?_
          rintro s ⟨⟨id, rfl⟩, hs⟩
          exact ⟨.subtree id _ hfolds fun body h => hlambda ⟨body, h⟩, hs⟩

/-- An argument as the pass binds it. -/
theorem resolved_triple (hI : Stable I) (ha : Resolvable host I a)
    (hends : ends → ∃ w, Returns host I (fun E => evaluate E [] a) w) :
    Triple host ends (fun _ => True) I (fun arg s => (∃ u,
      Returns host I (fun E => DualPass.factories.run E a) u ∧ ArgumentOf host I u arg) ∧ I s)
      fun E => resolvedArgument E a := by
  refine Triple.bind (Q := fun u s => (Returns host I (fun E => DualPass.factories.run E a) u ∧
    Matches host I (fun _ _ => True) (fun E => evaluate E [] a) (fun E => evaluate E [] u) ∧
      ∀ n, (evaluate (machine host n) [] u).Keeps I) ∧ I s) ?_ fun u =>
      Triple.assuming (fun s hs => hs.1) fun hu => ?_
  · refine ⟨fun n s u t hs hu => ?_, fun _ _ _ _ _ _ => trivial, fun _ s hs => ha.pass.reaches trivial s hs⟩
    have hpost := ha.pass.ok n s u t hs hu
    exact ⟨⟨.of_run hs hu, hpost.1⟩, hpost.2⟩
  · refine ((bindingArgument_triple hI (fun _ _ => trivial) hu.2.2 fun h _ => ?_).imp (fun s hs => hs.2) ?_)
    · obtain ⟨w, hw⟩ := hends h
      exact hu.2.1.reaches hw
    · rintro arg s ⟨harg, hs⟩
      exact ⟨⟨u, hu.1, harg⟩, hs⟩

/-- The value decides in the same way as the tree whether the argument is an accessor, and evaluates to
values that agree. -/
inductive Consistent (host : Host) (I : Store → Prop) (R : FormalParam → Value → Value → Prop)
    (formal : FormalParam) : Expr → Prop
  | accessor {body : Expr} : formal.ty.isFunc = false →
      (∀ u, Returns host I (fun E => DualPass.factories.run E (.lambda [] body)) u → ∃ body',
        u = .lambda [] body' ∧
          Matches host I (R formal) (fun E => evaluate E [] body) fun E => evaluate E [] body') →
      Consistent host I R formal (.lambda [] body)
  | value {a : Expr} : (∀ f, Returns host I (fun E => evaluate E [] a) (.func f) →
        formal.ty.isFunc = true ∨ f.arity ≠ 0) →
      (∀ u, Returns host I (fun E => DualPass.factories.run E a) u → (∀ body, u ≠ .lambda [] body) ∧
        Matches host I (R formal) (fun E => evaluate E [] a) fun E => evaluate E [] u) →
      Consistent host I R formal a

/-- Reading an accessor made of a tree evaluates it. -/
theorem get_deferred (id : Nat) (body : Expr) (l : Option Lam) (n : Nat) :
    Argument.get (machine host (n + 1)) (.deferred ⟨⟨id, 0, .closure ⟨[], body⟩ []⟩, l, none⟩) =
      evaluate (machine host n) [] body := rfl

/-- **The value bound at run time and the argument bound by the pass are read as values that agree.** -/
theorem Consistent.agree (ha : Consistent host I R formal a)
    (hw : Returns host I (fun E => evaluate E [] a) w)
    (hu : Returns host I (fun E => DualPass.factories.run E a) u) (harg : ArgumentOf host I u arg) :
    Argument.Agree host I R formal (.ofRuntime w formal.ty) arg := by
  cases ha with
  | @accessor body hty hbody =>
      obtain ⟨body', rfl, hmatches⟩ := hbody u hu
      obtain ⟨id, rfl⟩ : ∃ id, w = .func ⟨id, 0, .closure ⟨[], body⟩ []⟩ := by
        obtain ⟨n, s, t, _, hrun⟩ := hw
        cases hrun
        exact ⟨_, rfl⟩
      cases harg with
      | value hfolds => cases hfolds
      | subtree id l _ hnone => exact absurd rfl (hnone body')
      | accessor _ id' l =>
          have hdeferred : Argument.ofRuntime (.func ⟨id, 0, .closure ⟨[], body⟩ []⟩) formal.ty =
              .deferred (.ofFunc ⟨id, 0, .closure ⟨[], body⟩ []⟩) :=
            if_pos ⟨rfl, by rw [hty]; exact Bool.false_ne_true⟩
          rw [hdeferred]
          exact Matches.step_left rfl (get_deferred id body none)
            (Matches.step_right rfl (get_deferred id' body' l) hmatches)
  | value hnone hmatches =>
      obtain ⟨hother, hmatch⟩ := hmatches u hu
      have hvalue : Argument.ofRuntime w formal.ty = .value w := by
        cases w with
        | func f =>
            unfold Argument.ofRuntime
            refine if_neg fun h => ?_
            rcases hnone f hw with hty | harity
            · exact h.2 hty
            · exact harity h.1
        | _ => rfl
      rw [hvalue]
      cases harg with
      | value _ hw' => exact Matches.pure (hmatch.related hw hw')
      | accessor body => exact absurd rfl (hother body)
      | subtree id l _ _ => exact Matches.step_right rfl (get_deferred id u l) (hmatch.of_returned hw)

/-- Arguments bound at run time and by the pass agree. -/
theorem arguments_agree : ∀ {formals : List FormalParam} {as : List Expr} {ws : List Value}
    {args : List Argument}, List.Forall₂ (Consistent host I R) formals as →
    List.Forall₂ (fun a w => Returns host I (fun E => evaluate E [] a) w) as ws →
    List.Forall₂ (fun a arg => ∃ u, Returns host I (fun E => DualPass.factories.run E a) u ∧
      ArgumentOf host I u arg) as args →
    Bindings.Agree host I R
      (formals.zip (ws.zipWith Argument.ofRuntime (formals.map FormalParam.ty))) (formals.zip args)
  | [], _, _, _, .nil, .nil, .nil => .nil
  | _ :: _, _ :: _, _ :: _, _ :: _, .cons ha has, .cons hw hws, .cons harg hargs => by
      obtain ⟨u, hu, harg⟩ := harg
      exact .cons ⟨rfl, ha.agree hw hu harg⟩ (arguments_agree has hws hargs)

/-! ## Arguments over host code -/

section Arguments

variable {V : Vocabulary} {N : Expr → Prop} {body : Expr} {y : Param} (hV : V.Closed)
  (hhost : V.Respected host) (hcall : V.Callable) (hN : ∀ u, N u → DualPass.factories.acts u.node = false)
  (hI : Stable I)

theorem Term.clear {R : Bool → Param → Prop} {b : Bool} (h : Term V N R b a)
    (hN : ∀ u, N u → DualPass.factories.acts u.node = false) : a.Clear .factories := by
  refine h.everywhere.imp fun u hu => ?_
  rcases hu with ⟨_, p, rfl, _⟩ | hu
  · rfl
  · exact hN u hu.1

include hV hhost hcall hI

/-- A closed tree over host code evaluates to the same data in every store. -/
theorem closed_matches (h : Term V N (fun _ _ => False) false a) :
    Matches host I (Shared V) (fun E => evaluate E [] a) fun E => evaluate E [] a := by
  have hfollows : ∀ n, Follows host I (Shared V) (evaluate (machine host n) [] a) fun E => evaluate E [] a :=
    fun n => (Term.follows hV hhost hcall hI h a.filled_self a.filled_self
      fun _ _ _ _ h => h.elim).imp fun _ _ => alike_false.1
  exact Matches.of_follows hfollows hfollows

/-- A lambda over host code evaluates to functions that compute the same. -/
theorem lambda_matches (h : Term V N (Reads y) false body) :
    Matches host I (Alike host I V true) (fun E => evaluate E [] (.lambda [y] body))
      fun E => evaluate E [] (.lambda [y] body) := by
  have htriple : ∀ ends : Prop, Triple host ends I I
      (fun w s => (∃ id, w = .func ⟨id, 1, .closure ⟨[y], body⟩ []⟩) ∧ I s)
      fun E => evaluate E [] (.lambda [y] body) := fun _ =>
    Triple.of_run fun s hs => ⟨_, _, rfl, ⟨s.nextId, rfl⟩, hI.beside (beside_identity s) hs⟩
  refine Matches.of_triples (htriple False) (htriple True) ?_
  rintro _ _ ⟨id, rfl⟩ ⟨id', rfl⟩
  refine .func fun n v hv => ?_
  cases n with
  | zero => exact Follows.exhausted
  | succ n =>
      refine Follows.step (y := fun E => evaluate E [(y, v)] body) (call_closure id' y body v) ?_
      refine Follows.congr (call_closure id y body v n) (fun _ => rfl) ?_
      refine (Term.follows hV hhost hcall hI h body.filled_self body.filled_self ?_).imp
        fun _ _ => alike_false.1
      rintro _ _ _ _ ⟨rfl, rfl, _⟩ rfl rfl
      exact Follows.congr (evaluate_own ..) (fun _ => evaluate_own ..) (Follows.pure (.data hv))

include hN

/-- A closed tree that evaluates to no function is consistent for parameters that are none. -/
theorem consistent_of_closed (hty : formal.ty.isFunc = false) (hdata : ∀ f, ¬ V.data (.func f))
    (h : Term V N (fun _ _ => False) false a) : Resolvable host I a ∧
      Consistent host I (fun formal => Alike host I V formal.ty.isFunc) formal a := by
  have hmatches := closed_matches hV hhost hcall hI h
  have hclear := h.clear hN
  refine ⟨resolvable_of_clear hclear (hmatches.imp fun _ _ _ => trivial), .value (fun f hf => ?_)
    fun u hu => ⟨?_, ?_⟩⟩
  · obtain ⟨_, s, _, hs, _⟩ := id hf
    obtain ⟨b, t, hb⟩ := hmatches.reaches hf s hs
    exact absurd (hmatches.related hf (.of_reaches hs hb)).1 (hdata f)
  · obtain rfl := returns_of_clear hclear hu
    rintro body rfl
    cases h with
    | node parts hordinary => exact absurd rfl ((hordinary.shape rfl).2 [] body)
  · obtain rfl := returns_of_clear hclear hu
    rw [hty]
    exact hmatches.imp fun _ _ => alike_false.2

/-- An accessor over a closed tree is consistent for parameters that are no functions. -/
theorem consistent_of_accessor (hty : formal.ty.isFunc = false)
    (h : Term V N (fun _ _ => False) false body) : Resolvable host I (.lambda [] body) ∧
      Consistent host I (fun formal => Alike host I V formal.ty.isFunc) formal (.lambda [] body) := by
  have hclear : Tree.Clear .factories (.lambda [] body) := Tree.clear_lambda.2 (h.clear hN)
  have htriple : ∀ ends : Prop, Triple host ends I I (fun w s => True ∧ I s)
      fun E => evaluate E [] (.lambda [] body) := fun _ =>
    Triple.of_run fun s hs => ⟨_, _, rfl, trivial, hI.beside (beside_identity s) hs⟩
  refine ⟨resolvable_of_clear hclear
    (Matches.of_triples (htriple False) (htriple True) fun _ _ _ _ => trivial), .accessor hty fun u hu => ?_⟩
  refine ⟨body, returns_of_clear hclear hu, ?_⟩
  rw [hty]
  exact (closed_matches hV hhost hcall hI h).imp fun _ _ => alike_false.2

/-- A lambda over host code is consistent for parameters that are functions. -/
theorem consistent_of_lambda (hty : formal.ty.isFunc = true) (h : Term V N (Reads y) false body) :
    Resolvable host I (.lambda [y] body) ∧
      Consistent host I (fun formal => Alike host I V formal.ty.isFunc) formal (.lambda [y] body) := by
  have hmatches := lambda_matches hV hhost hcall hI h
  have hclear : Tree.Clear .factories (.lambda [y] body) := Tree.clear_lambda.2 (h.clear hN)
  refine ⟨resolvable_of_clear hclear (hmatches.imp fun _ _ _ => trivial), .value (fun _ _ => .inl hty)
    fun u hu => ?_⟩
  obtain rfl := returns_of_clear hclear hu
  rw [hty]
  exact ⟨fun _ h => (by cases h), hmatches⟩

end Arguments

/-! ## Resolving and evaluating -/

/-- Evaluating an argument. -/
theorem evaluated_triple (ha : Resolvable host I a) (herr : ∀ s, I s → err s)
    (hends : ends → ∀ s, I s → ∃ w t, Reaches host (fun E => evaluate E [] a) s w t) :
    Triple host ends err I
      (fun w s => Returns host I (fun E => evaluate E [] a) w ∧ I s) fun E => evaluate E [] a := by
  refine ⟨fun n s w t hs hw => ⟨.of_run hs hw, (ha.again.keeps n).ok hw hs⟩, fun n s e t hs he => ?_, hends⟩
  have hafter := (ha.again.keeps n).after s hs
  rw [Act.final_error he] at hafter
  exact herr t hafter

/-- **A binding call that evaluates may be an argument of another one:** it evaluates again, and the pass puts
a literal in its place. -/
theorem BindingCall.resolvable (hcall : BindingCall k formals as t) (hI : Stable I)
    (has : ∀ a ∈ as, Resolvable host I a) (hreturn : Returns host I (fun E => evaluate E [] t) b) :
    Resolvable host I t := by
  obtain ⟨m, rfl, hm, hlength⟩ := hcall.method
  have hevaluated : ∀ ends : Prop, (ends → ∀ a ∈ as, ∀ s, I s →
      ∃ w s', Reaches host (fun E => evaluate E [] a) s w s') → Triple host ends I I _ _ :=
    fun ends hends => evaluate_call_triple hm hlength hI (σ := []) fun a ha =>
      evaluated_triple (has a ha) (fun _ hs => hs) fun h => hends h a ha
  obtain ⟨n, s₀, t₀, hs₀, hb⟩ := hreturn
  obtain ⟨⟨ws, hws, -⟩, -⟩ := (hevaluated False False.elim).ok n s₀ b t₀ hs₀ hb
  have harguments : ∀ a ∈ as, ∃ w, Returns host I (fun E => evaluate E [] a) w :=
    forall_right hws.flip fun w a _ hw => ⟨w, hw⟩
  have hends : ∀ a ∈ as, ∀ s, I s → ∃ w s', Reaches host (fun E => evaluate E [] a) s w s' := by
    intro a ha
    obtain ⟨w, hw⟩ := harguments a ha
    exact (has a ha).again.reaches hw
  refine ⟨Matches.of_triples (hevaluated False False.elim) (hevaluated True fun _ => hends)
    fun _ _ _ _ => trivial, ?_⟩
  refine (resolve_call_triple hm hlength hI fun a ha =>
    resolved_triple hI (has a ha) fun _ => harguments a ha).imp (fun _ hs => hs) ?_
  rintro _ s ⟨⟨args, b', rfl, -⟩, hs⟩
  have hliteral : ∀ ends : Prop, Triple host ends I I (fun w s => w = b' ∧ I s)
      fun E => evaluate E [] (.literal b' (Value.ty b')) := fun _ => Triple.pure fun s hs => ⟨rfl, hs⟩
  exact ⟨⟨Matches.of_triples (hevaluated False False.elim) (hliteral True) fun _ _ _ _ => trivial,
    (hliteral False).keeps⟩, hs⟩

/-- **Resolving a binding call does what evaluating it does.** Take a call that binds parameters of a literal
factory, with as many arguments as its method takes, each of which evaluates whenever it has evaluated once,
as does what the pass makes of it.

If evaluating the call returns something, the pass puts a literal in its place that holds a value of the same
type. If that is a dual, so is the one in the literal. Where in addition the arguments are accessors for both
or for neither, and the builders do not tell apart arguments that agree, the dual in the literal returns
whatever the evaluated one returns and is not a function. And if the pass resolves the call, evaluating it
returns something, provided that the arguments that do not fold evaluate. -/
theorem resolve_refines_evaluate (hcall : BindingCall k formals as t) (hI : Stable I)
    (has : ∀ a ∈ as, Resolvable host I a) :
    (∀ b, Returns host I (fun E => evaluate E [] t) b → ∀ s, I s → ∃ b' s',
      Reaches host (fun E => DualPass.factories.run E t) s (.literal b' (Value.ty b')) s' ∧
        Value.ty b' = Value.ty b) ∧
    (∀ d u, Returns host I (fun E => evaluate E [] t) (.dual d) →
      Returns host I (fun E => DualPass.factories.run E t) u → ∃ d' : Dual, u = d'.literal ∧
        ∀ (R : FormalParam → Value → Value → Prop) (v w : Value),
          List.Forall₂ (Consistent host I R) formals as →
          (∀ x ∈ k.bound, Argument.Agree host I R x.1 x.2 x.2) →
          k.builders.Uniform host I R (k.bound.map Prod.fst ++ formals) v →
          Accounts host I d → Accounts host I d' →
          Returns host I (fun E => d.evaluate E v) w → (∀ f, w ≠ .func f) →
          ∀ s, I s → ∃ s', Reaches host (fun E => d'.evaluate E v) s w s') ∧
    (∀ u, Returns host I (fun E => DualPass.factories.run E t) u →
      (∀ a ∈ as, a.folds = false → ∀ s, I s → ∃ w s', Reaches host (fun E => evaluate E [] a) s w s') →
      ∀ s, I s → ∃ b s', Reaches host (fun E => evaluate E [] t) s b s') := by
  obtain ⟨m, rfl, hm, hlength⟩ := hcall.method
  have hevaluated : ∀ ends : Prop, (ends → ∀ a ∈ as, ∀ s, I s →
      ∃ w s', Reaches host (fun E => evaluate E [] a) s w s') → Triple host ends (fun _ => True) I _ _ :=
    fun ends hends => evaluate_call_triple hm hlength hI (σ := []) fun a ha =>
      evaluated_triple (has a ha) (fun _ _ => trivial) fun h => hends h a ha
  have hresolved : ∀ ends : Prop, (ends → ∀ a ∈ as, ∃ w, Returns host I (fun E => evaluate E [] a) w) →
      Triple host ends (fun _ => True) I _ _ :=
    fun ends hends => resolve_call_triple hm hlength hI fun a ha =>
      resolved_triple hI (has a ha) fun h => hends h a ha
  refine ⟨?_, ?_, ?_⟩
  · rintro b ⟨n, s₀, t₀, hs₀, hb⟩ s hs
    obtain ⟨⟨ws, hws, -, hty⟩, -⟩ := (hevaluated False False.elim).ok n s₀ b t₀ hs₀ hb
    have hreturn : ∀ a ∈ as, ∃ w, Returns host I (fun E => evaluate E [] a) w :=
      forall_right hws.flip fun w a _ hw => ⟨w, hw⟩
    obtain ⟨u, s', hu, ⟨args, b', rfl, -, -, hty'⟩, -⟩ :=
      (hresolved True fun _ => hreturn).arrives trivial hs
    exact ⟨b', s', hu, hty'.trans hty.symm⟩
  · rintro d u ⟨n, s₀, t₀, hs₀, hb⟩ ⟨n', s₁, t₁, hs₁, hu⟩
    obtain ⟨⟨ws, hws, hbound, -⟩, -⟩ := (hevaluated False False.elim).ok n s₀ _ t₀ hs₀ hb
    obtain ⟨⟨args, b', rfl, hargs, hbound', -⟩, -⟩ := (hresolved False False.elim).ok n' s₁ u t₁ hs₁ hu
    cases hbound with
    | dual hformals ho =>
        cases hbound' with
        | factory k' hother => exact absurd hformals hother
        | @dual d' _ ho' =>
            refine ⟨d', rfl, fun R v w hconsistent hearlier hbuilders hd hd' hw hnone s hs => ?_⟩
            have hcount : ws.length = formals.length := hws.length_eq.symm.trans hlength
            have hfst : (k.bound ++ formals.zip (ws.zipWith Argument.ofRuntime
                (formals.map FormalParam.ty))).map Prod.fst = k.bound.map Prod.fst ++ formals := by
              rw [List.map_append, List.map_fst_zip (by simp [hcount])]
            refine evaluate_agree hI ho ho' hd hd' (hfst ▸ hbuilders) ?_ hw hnone hs
            have hsame : Bindings.Agree host I R k.bound k.bound :=
              List.forall₂_same.2 fun x hx => ⟨rfl, hearlier x hx⟩
            exact List.rel_append hsame (arguments_agree hconsistent hws hargs)
  · rintro u ⟨n, s₀, t₀, hs₀, hu⟩ hothers s hs
    obtain ⟨⟨args, b', -, hargs, -, -⟩, -⟩ := (hresolved False False.elim).ok n s₀ u t₀ hs₀ hu
    have hall : ∀ a ∈ as, ∀ s, I s → ∃ w s', Reaches host (fun E => evaluate E [] a) s w s' := by
      intro a ha
      cases hfolds : a.folds with
      | false => exact hothers a ha hfolds
      | true =>
          -- The pass has evaluated this argument, so it has a value.
          obtain ⟨arg, u, hu, harg⟩ := forall_right hargs.flip (fun arg a _ h => Exists.intro arg h) a ha
          obtain rfl := returns_of_clear (clear_of_folds hfolds) hu
          obtain ⟨w, hw⟩ := harg.returns hfolds
          exact (has u ha).again.reaches hw
    obtain ⟨b, s', hb, -⟩ := (hevaluated True fun _ => hall).arrives trivial hs
    exact ⟨b, s', hb⟩

end Resolution

/-! ## A factory that takes a function -/

namespace Applied

/-- The parameters of the factory. -/
def k : FormalParam := ⟨"k", .int⟩
def f : FormalParam := ⟨"f", .func [.int] .int⟩

/-- Makes `x => f(x) + k`. -/
def recipe : ExprRecipe :=
  .lambda [.fresh "x" "x" .int]
    (.operation .add (.invoke (.captured 1) [.scoped "x"]) (.captured 0))

/-- The builder, registered. -/
def registry : Registry := ⟨#[.recipe recipe], #[], #[]⟩

/-- What it makes, with places for the parameter and for the arguments. -/
def template : Expr :=
  .operation .add (.invoke (.param (Template.argument 1)) [.param Template.own])
    (.param (Template.argument 0))

/-- The factory. -/
def factory : Factory := ⟨0, .projection, .tree 0, [], k, some f, .int, .int⟩

def y : Param := ⟨1, "y", .int⟩

/-- `2 * 3`. -/
def six : Expr := .operation .mul (Tree.constant (.int 2)) (Tree.constant (.int 3))

/-- `y * 2`. -/
def twice : Expr := .operation .mul (.param y) (Tree.constant (.int 2))

/-- `factory.bind(2 * 3, y => y * 2)`. -/
def call : Expr := factory.bindExpr [six, .lambda [y] twice]

/-- Scalars as data, and no host functions. -/
def vocabulary : Vocabulary where
  data v := v.isScalar = true
  host _ _ := False

/-- The dual made by evaluating the call. -/
def evaluated : Dual := ⟨3, .projection, .int, .int, .bound (.tree 0)
  [(k, .value (.int 6)), (f, .value (.func ⟨2, 1, .closure ⟨[y], twice⟩ []⟩))]⟩

/-- The dual in the literal that the call is resolved to. -/
def resolved : Dual := ⟨6, .projection, .int, .int, .bound (.tree 0)
  [(k, .deferred ⟨⟨4, 0, .closure ⟨[], six⟩ []⟩, some ⟨[], six⟩, none⟩),
    (f, .deferred ⟨⟨5, 0, .closure ⟨[], .lambda [y] twice⟩ []⟩, some ⟨[], .lambda [y] twice⟩, none⟩)]⟩

/-- A store with so many identities given out. -/
def store (nextId : Nat) : Store := { Store.initial with nextId := nextId }

theorem evaluate_call (E : Engine) : evaluate E [] call (store 2) = .ok (.dual evaluated) (store 4) := rfl

theorem resolve_call (E : Engine) :
    DualPass.factories.run E call (store 4) = .ok resolved.literal (store 7) := rfl

/-- The dual that evaluation makes returns `5 * 2 + 6`. -/
theorem evaluate_five : ∃ s, evaluated.evaluate (machine registry.host 6) (.int 5) (store 7) =
    .ok (.int 16) s := by
  have hnone : ∀ n, (store n).functions[3]? = none := fun _ => Std.HashMap.getElem?_empty
  exact ⟨_, (evaluate_first _ (hnone 7) rfl (hnone 11)).trans rfl⟩

theorem closed : vocabulary.Closed := ⟨fun _ h => h, fun _ _ _ _ _ h => by cases h⟩

theorem respected (host : Host) : vocabulary.Respected host := fun _ _ h => h.elim

theorem callable : vocabulary.Callable := fun _ _ h => by cases h

theorem build_run (E : Engine) (c c' : Captured) (s : Store) :
    registry.host.buildTree E 0 [c, c'] s =
      .ok ⟨[⟨s.nextId, "x", .int⟩], .operation .add
        (.invoke (c'.read (s.nextId + 1)) [.param ⟨s.nextId, "x", .int⟩]) (c.read (s.nextId + 2))⟩
        { s with nextId := s.nextId + 3 } := rfl

theorem filled {q : Param} {c c' : Captured} (i j : Nat) : template.Filled (Stands q [c, c'])
    (.operation .add (.invoke (c'.read i) [.param q]) (c.read j)) :=
  (Tree.filled_node fun r h => by cases h).2 ⟨rfl, .cons
    ((Tree.filled_node fun r h => by cases h).2 ⟨rfl, .cons (.argument i rfl) (.cons .own .nil)⟩)
    (.cons (.argument j rfl) .nil)⟩

theorem builds : Builds registry.host 0 factory.openParams template := by
  refine ⟨fun cs s hcs => ?_⟩
  obtain ⟨c, c', rfl⟩ := List.length_eq_two.1 ((List.length_map _).symm.trans (congrArg List.length hcs))
  refine Triple.congr (fun E => funext fun s => build_run E c c' s) (Triple.of_run ?_)
  rintro _ rfl
  exact ⟨_, _, rfl, ⟨_, _, rfl, Nat.le_refl _, filled _ _⟩, rfl, rfl, Nat.le_add_right _ _⟩

/-- Nodes that bind nothing. -/
def Plain (u : Expr) : Prop := DualPass.factories.acts u.node = false

theorem term_operation {R : Bool → Param → Prop} {op : BinaryOp} {a b : Expr}
    (ha : Term vocabulary Plain R false a) (hb : Term vocabulary Plain R false b) :
    Term vocabulary Plain R false (.operation op a b) := by
  refine .node [(false, a), (false, b)] (.basic (.binary ..)) rfl rfl ?_
  simp only [List.forall_mem_cons, List.not_mem_nil, false_implies, implies_true, and_true]
  exact ⟨ha, hb⟩

theorem term_constant {R : Bool → Param → Prop} (n : Int64) :
    Term vocabulary Plain R false (Tree.constant (.int n)) :=
  .node [] (.basic (.literal _ rfl)) rfl rfl (by simp)

theorem term_template : Term vocabulary Plain
    (Place (factory.openParams.map fun formal => formal.ty.isFunc)) false template := by
  refine term_operation ?_ (.param (.argument rfl))
  refine .node [(true, .param (Template.argument 1)), (false, .param Template.own)]
    (.invoke true _ [.param Template.own] fun _ => rfl) rfl rfl ?_
  simp only [List.forall_mem_cons, List.not_mem_nil, false_implies, implies_true, and_true]
  exact ⟨.param (.argument rfl), .param .own⟩

/-- What has been published of the two duals was computed for them. -/
def Kept : Store → Prop := Standing registry.host (fun _ => True) [evaluated, resolved]

theorem kept_stable : Stable Kept := standing_stable stable_true

theorem kept_store (n : Nat) : Kept (store n) :=
  ⟨trivial, fun _ _ _ h => by cases Std.HashMap.getElem?_empty.symm.trans h⟩

theorem accounts {d : Dual} (hd : d ∈ [evaluated, resolved]) : Accounts registry.host Kept d := by
  refine standing_accounts (fun _ _ _ => trivial) hd fun e he hid => ?_
  simp only [List.mem_cons, List.not_mem_nil, or_false] at hd he
  rcases hd with rfl | rfl <;> rcases he with rfl | rfl <;> first | rfl | cases hid

theorem argument_six : Resolvable registry.host Kept six ∧ Consistent registry.host Kept
    (fun formal => Alike registry.host Kept vocabulary formal.ty.isFunc) k six :=
  consistent_of_closed closed (respected _) callable (fun _ h => h) kept_stable rfl (fun _ h => by cases h)
    (term_operation (term_constant 2) (term_constant 3))

theorem argument_twice : Resolvable registry.host Kept (.lambda [y] twice) ∧ Consistent registry.host Kept
    (fun formal => Alike registry.host Kept vocabulary formal.ty.isFunc) f (.lambda [y] twice) :=
  consistent_of_lambda closed (respected _) callable (fun _ h => h) kept_stable rfl
    (term_operation (.param ⟨rfl, rfl, rfl⟩) (term_constant 2))

end Applied

/-- The theorem at a factory that takes a number and a function, bound to a product and a lambda. Evaluation
binds the values `6` and `y => y * 2`, the pass binds accessors over the trees, and both duals return `16`
on `5`. -/
theorem resolve_refines_evaluate_applied :
    evaluate (machine Applied.registry.host 6) [] Applied.call (Applied.store 2) =
      .ok (.dual Applied.evaluated) (Applied.store 4) ∧
    DualPass.factories.run (machine Applied.registry.host 6) Applied.call (Applied.store 4) =
      .ok Applied.resolved.literal (Applied.store 7) ∧
    (∃ s, Applied.evaluated.evaluate (machine Applied.registry.host 6) (.int 5) (Applied.store 7) =
      .ok (.int 16) s) ∧
    ∃ s, Reaches Applied.registry.host (fun E => Applied.resolved.evaluate E (.int 5)) (Applied.store 7)
      (.int 16) s := by
  obtain ⟨s, hs⟩ := Applied.evaluate_five
  refine ⟨Applied.evaluate_call _, Applied.resolve_call _, ⟨s, hs⟩, ?_⟩
  have hargs : ∀ a ∈ [Applied.six, .lambda [Applied.y] Applied.twice],
      Resolvable Applied.registry.host Applied.Kept a := by
    simp only [List.forall_mem_cons, List.not_mem_nil, false_implies, implies_true, and_true]
    exact ⟨Applied.argument_six.1, Applied.argument_twice.1⟩
  obtain ⟨d', hd', hrefines⟩ := (resolve_refines_evaluate (.bind rfl) Applied.kept_stable hargs).2.1
    Applied.evaluated Applied.resolved.literal
    ⟨0, _, _, Applied.kept_store 2, Applied.evaluate_call _⟩
    ⟨0, _, _, Applied.kept_store 4, Applied.resolve_call _⟩
  obtain rfl : Applied.resolved = d' := by cases hd'; rfl
  exact hrefines _ (.int 5) (.int 16) (.cons Applied.argument_six.2 (.cons Applied.argument_twice.2 .nil))
    (fun _ h => by cases h)
    (uniform_of_template Applied.closed (Applied.respected _) Applied.callable Applied.builds
      Applied.term_template Applied.kept_stable rfl)
    (Applied.accounts (by simp)) (Applied.accounts (by simp)) ⟨6, _, s, Applied.kept_store 7, hs⟩
    (fun _ h => by cases h) _ (Applied.kept_store 7)

/-! ## Where resolving and evaluating part -/

namespace Misfit

/-- The builders of `x => x + k` and of `x => x + f()`, registered. -/
def registry : Registry :=
  ⟨#[.recipe (.lambda [.fresh "x" "x" .int] (.operation .add (.scoped "x") (.captured 0))),
    .recipe (.lambda [.fresh "x" "x" .int] (.operation .add (.scoped "x") (.invoke (.captured 0) [])))],
    #[], #[]⟩

/-- A parameter that is a number, and one that is a function without parameters. -/
def k : FormalParam := ⟨"k", .int⟩
def f : FormalParam := ⟨"f", .func [] .int⟩

/-- The factories. -/
def addsNumber : Factory := ⟨0, .projection, .tree 0, [], k, none, .int, .int⟩
def addsResult : Factory := ⟨0, .projection, .tree 1, [], f, none, .int, .int⟩

/-- `() => 3`, as a tree and as a function. -/
def thunk : Lam := ⟨[], Tree.constant (.int 3)⟩
def three (id : Nat) : Func := ⟨id, 0, .closure thunk []⟩

/-- `addsNumber.bind(1 / 0)`. -/
def quotient : Expr :=
  addsNumber.bindExpr [.operation .div (Tree.constant (.int 1)) (Tree.constant (.int 0))]

/-- A literal that holds a function without parameters, bound as a number. -/
def literal : Expr := addsNumber.bindExpr [Tree.constant (.func (three 1))]

/-- `addsResult.bind(() => 3)`. -/
def lambda : Expr := addsResult.bindExpr [thunk.tree]

/-- One argument for a factory with two parameters. -/
def single : Expr :=
  Factory.bindExpr { addsNumber with second := some f } [Tree.constant (.int 1)]

/-- A store with so many identities given out. -/
def store (nextId : Nat) : Store := { Store.initial with nextId := nextId }

/-- The machine on the registered code. -/
def engine : Engine := machine registry.host 6

/-- A dual of one of the factories, made last. -/
def bound (id : Nat) (build : BuilderId) (formal : FormalParam) (arg : Argument) : Dual :=
  ⟨id, .projection, .int, .int, .bound (.tree build) [(formal, arg)]⟩

end Misfit

/-- The call and the literal part where an argument fails that does not fold; where a function without
parameters is bound as a number, since only its value tells that it is an accessor; where a lambda without
parameters is bound as a function, since only its shape tells that it is one; and where the method takes
more arguments. -/
theorem resolve_unlike_evaluate :
    ((∃ e s, evaluate Misfit.engine [] Misfit.quotient (Misfit.store 2) = .error (.failed e) s) ∧
      ∃ d s, DualPass.factories.run Misfit.engine Misfit.quotient (Misfit.store 2) =
        .ok (Dual.literal d) s) ∧
    (∃ d d' s s', evaluate Misfit.engine [] Misfit.literal (Misfit.store 2) = .ok (.dual d) s ∧
      DualPass.factories.run Misfit.engine Misfit.literal (Misfit.store 2) = .ok (Dual.literal d') s' ∧
      (∃ t, d.evaluate Misfit.engine (.int 5) s = .ok (.int 8) t) ∧
      ∃ e t, d'.evaluate Misfit.engine (.int 5) s' = .error (.failed e) t) ∧
    (∃ d d' s s', evaluate Misfit.engine [] Misfit.lambda (Misfit.store 2) = .ok (.dual d) s ∧
      DualPass.factories.run Misfit.engine Misfit.lambda (Misfit.store 2) = .ok (Dual.literal d') s' ∧
      (∃ t, d.evaluate Misfit.engine (.int 5) s = .ok (.int 8) t) ∧
      ∃ e t, d'.evaluate Misfit.engine (.int 5) s' = .error (.failed e) t) ∧
    ((∃ e s, evaluate Misfit.engine [] Misfit.single (Misfit.store 2) = .error (.failed e) s) ∧
      ∃ k s, DualPass.factories.run Misfit.engine Misfit.single (Misfit.store 2) =
        .ok (Factory.literal k) s) := by
  have hnone : ∀ n id, (Misfit.store n).functions[id]? = none := fun _ _ => Std.HashMap.getElem?_empty
  refine ⟨⟨⟨_, _, rfl⟩, _, _, rfl⟩, ?_, ?_, ⟨_, _, rfl⟩, _, _, rfl⟩
  · refine ⟨Misfit.bound 2 0 Misfit.k (.deferred (.ofFunc (Misfit.three 1))),
      Misfit.bound 2 0 Misfit.k (.value (.func (Misfit.three 1))), Misfit.store 3, Misfit.store 3, rfl, rfl,
      ⟨_, (evaluate_first _ (hnone _ _) rfl (hnone 4 _)).trans rfl⟩,
      _, _, (evaluate_first _ (hnone _ _) rfl (hnone 6 _)).trans rfl⟩
  · refine ⟨Misfit.bound 3 1 Misfit.f (.value (.func (Misfit.three 2))),
      Misfit.bound 3 1 Misfit.f (.deferred ⟨Misfit.three 2, some Misfit.thunk, none⟩), Misfit.store 4,
      Misfit.store 4, rfl, rfl, ⟨_, (evaluate_first _ (hnone _ _) rfl (hnone 7 _)).trans rfl⟩,
      _, _, (evaluate_first _ (hnone _ _) rfl (hnone 5 _)).trans rfl⟩

end DualForm
