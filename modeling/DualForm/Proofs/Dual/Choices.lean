import DualForm.Host.Registry
import DualForm.Proofs.Dual.Agreement
import DualForm.Proofs.Dual.Hygiene
import DualForm.Proofs.Rewriting.Choices

/-!
# Duals chosen at run time

What the pipeline makes of a lambda that evaluates a dual it receives, or converts a dual chosen by
conditions, computes what the lambda computes. An evaluation of a chosen dual does not survive: its
branches become lambdas, and the evaluation expects a dual. Nor does the conversion of a dual
received, which is dropped and leaves the dual where a function is applied.

* `Lambda.compute` — a lambda, compiled and called.
* `Role.Relates` — values before and after, by what they are used as.
* `Vocabulary.Callable` — functions among the data depend on their arguments alone.

Principal results: `Resolved.follows` — what the passes make of a tree follows it;
`rewriteLambda_choices` — which choices at run time survive the pipeline.
-/

namespace DualForm

open Act (Ensures)

variable {host : Host} {I : Store → Prop} {V : Vocabulary} {D : Dual → Prop} {form : Dual → Lam}
  {broken : Prop} {ρ : Role} {t u : Expr} {E : Engine} {σ : Scope}

/-- A lambda, compiled and called. -/
def Lambda.compute (E : Engine) (l : Lam) (v : Value) : Act Value := do E.call (← compile l) [v]

/-- Functions among the data depend on their arguments alone. -/
def Vocabulary.Callable (V : Vocabulary) : Prop :=
  ∀ f n, V.data (.func f) → V.host f (List.replicate n false)

/-- The value of a tree before and after the passes: the same data; functions of which one follows
the other; a dual, and a function that follows its function form. -/
inductive Role.Relates (host : Host) (I : Store → Prop) (V : Vocabulary) : Role → Value → Value → Prop
  | value {v : Value} : V.data v → Relates host I V .value v v
  | function {f g : Func} : Tracks host I V f g → Relates host I V .function (.func f) (.func g)
  | dual {d : Dual} {g : Func} :
      (∀ n, Ensures I (fun f => Tracks host I V f g) ((machine host n).function d)) →
      Relates host I V (.dual d.kind) (.dual d) (.func g)

theorem Role.Relates.alike {b : Bool} {v w : Value} (h : (Role.operand b).Relates host I V v w) :
    Alike host I V b v w := by
  cases b with
  | false => cases h with | value hv => exact .data hv
  | true => cases h with | function hfg => exact .func hfg

theorem Role.Relates.of_shared {v w : Value} (h : Shared V v w) : Role.value.Relates host I V v w := by
  obtain ⟨hv, rfl⟩ := h
  exact .value hv

/-! ## Evaluating receivers -/

section Receivers

variable (kind : DualKind) (source result : Ty) (receiver a : Expr)

theorem evaluate_evaluation_invoked :
    evaluate E σ (Tree.evaluation kind source result false receiver a) = (do
      let v ← evaluate E σ receiver
      let d ← Act.lift (Dual.expect kind v)
      let f ← E.function d
      let w ← evaluate E σ a
      E.call f [w]) := by
  show evaluate E σ (.invoke (.member receiver (Dual.evaluator kind source result)) [a]) = _
  have hread : ∀ v, (Dual.evaluator kind source result).read E (some v) = (do
      return .func (← E.function (← Act.lift (Dual.expect kind v)))) := fun v => rfl
  rw [evaluate_invoke]
  simp [evaluate, evaluateAll, hread]

theorem evaluate_evaluation_called :
    evaluate E σ (Tree.evaluation kind source result true receiver a) = (do
      let v ← evaluate E σ receiver
      let w ← evaluate E σ a
      let d ← Act.lift (Dual.expect kind v)
      let f ← E.function d
      E.call f [w]) := by
  show evaluate E σ (.call receiver (Dual.evaluateMethod kind source result) [a]) = _
  have hinvoke : ∀ v w, (Dual.evaluateMethod kind source result).invoke E (some v) [w] = (do
      let d ← Act.lift (Dual.expect kind v)
      let f ← E.function d
      E.call f [w]) := fun v w => rfl
  simp [evaluate, evaluateAll, hinvoke]

theorem evaluate_conversion (ty : Ty) :
    evaluate E σ (Tree.conversion kind source result ty receiver) = (do
      let v ← evaluate E σ receiver
      let d ← Act.lift (Dual.expect kind v)
      return .func (← E.function d)) := rfl

end Receivers

/-- Evaluating a parameter that holds a reproducible dual, on an argument that is rewritten. -/
theorem evaluation_follows {kind : DualKind} {source result : Ty} {byMethod : Bool} {p : Param}
    {a a' : Expr} {n : Nat} {x : Param} {v : Value}
    (hdual : ∀ d, v = .dual d → Reproducible host I V d)
    (ha : Follows host I (Shared V) (evaluate (machine host n) [(x, v)] a)
      fun E => evaluate E [(x, v)] a') :
    Follows host I (Shared V)
      (evaluate (machine host n) [(x, v)] (Tree.evaluation kind source result byMethod (.param p) a))
      fun E => evaluate E [(x, v)] (Tree.evaluation kind source result byMethod (.param p) a') := by
  have hparam : Follows host I (fun w w' => w = v ∧ w' = v)
      (evaluate (machine host n) [(x, v)] (.param p)) fun E => evaluate E [(x, v)] (.param p) := by
    by_cases hp : p = x
    · subst hp
      exact Follows.congr (evaluate_own p v) (fun E => evaluate_own p v) (Follows.pure ⟨rfl, rfl⟩)
    · rw [evaluate_foreign hp]
      exact Follows.fail
  have hexpect : Follows host I (fun d e => d = e ∧ v = .dual d) (Act.lift (Dual.expect kind v))
      fun _ => Act.lift (Dual.expect kind v) :=
    Follows.lift fun d hd => ⟨d, hd, rfl, (expect_ok hd).1⟩
  cases byMethod with
  | false =>
      refine Follows.congr (evaluate_evaluation_invoked ..) (fun E => evaluate_evaluation_invoked ..) ?_
      refine hparam.bind ?_
      rintro _ _ ⟨rfl, rfl⟩
      refine hexpect.bind ?_
      rintro d _ ⟨rfl, hd⟩
      refine (hdual d hd n).bind fun f g hfg => ha.bind ?_
      rintro w _ ⟨hw, rfl⟩
      exact hfg n w hw
  | true =>
      refine Follows.congr (evaluate_evaluation_called ..) (fun E => evaluate_evaluation_called ..) ?_
      refine hparam.bind ?_
      rintro _ _ ⟨rfl, rfl⟩
      refine ha.bind ?_
      rintro w _ ⟨hw, rfl⟩
      refine hexpect.bind ?_
      rintro d _ ⟨rfl, hd⟩
      exact (hdual d hd n).bind fun f g hfg => hfg n w hw

/-- A literal dual, and its tree form in its place. -/
theorem literal_follows {d : Dual} {l : Lam} (hI : Stable I) (hd : Agrees host I V d l) (n : Nat) :
    Follows host I ((Role.dual d.kind).Relates host I V) (evaluate (machine host n) σ d.literal)
      fun E => evaluate E σ l.tree := by
  obtain ⟨p, hp⟩ := hd.single
  obtain ⟨params, body⟩ := l
  cases hp
  refine Ensures.pure fun s hs => ?_
  refine ⟨.func ⟨s.nextId, 1, .closure ⟨[p], body⟩ σ⟩, { s with nextId := s.nextId + 1 },
    ⟨0, fun _ _ => rfl⟩, hI s _ hs rfl rfl (Nat.le_succ _), .dual fun k => ?_⟩
  refine (hd.function k).imp fun f hf m v hv => ?_
  exact (hf m v p σ rfl hv).step fun j => call_closure _ p body v j

/-- **What the passes make of a tree follows it,** as long as it neither evaluates chosen duals nor
converts parameters. -/
theorem Resolved.follows (hV : V.Closed) (hhost : V.Respected host) (hcall : V.Callable)
    (hI : Stable I) (hD : ∀ d, D d → Agrees host I V d (form d)) {x : Param} {v : Value}
    (hv : x.ty.wrapper? = none → V.data v) (hdual : ∀ d, v = .dual d → Reproducible host I V d)
    (h : Resolved V form D (fun _ => True) False ρ t u) (n : Nat) :
    Follows host I (ρ.Relates host I V) (evaluate (machine host n) [(x, v)] t)
      fun E => evaluate E [(x, v)] u := by
  induction h with
  | @node t u parts hbasic _ ht hhead hu _ ih =>
      refine (basic_follows hV hhost hI parts hbasic ht hhead hu fun q hq => ?_).imp
        fun _ _ => Role.Relates.of_shared
      exact (ih q hq).imp fun _ _ => Role.Relates.alike
  | @param p hp =>
      by_cases hx : p = x
      · subst hx
        exact Follows.congr (evaluate_own p v) (fun E => evaluate_own p v) (Follows.pure (.value (hv hp)))
      · rw [evaluate_foreign hx]
        exact Follows.fail
  | @invoke f f' handed args hone _ _ ihf ih =>
      have hargs := evaluateAll_follows (args.map fun a => (false, a.1, a.2)) fun q hq => by
        obtain ⟨a, ha, rfl⟩ := List.mem_map.1 hq
        exact (ih a ha).imp fun _ _ => Role.Relates.alike (b := false)
      simp only [List.map_map, Function.comp_def, List.map_const'] at hargs
      refine Follows.congr (evaluate_invoke f _) (fun E => evaluate_invoke f' _) ?_
      refine ihf.bind fun w w' hw => hargs.bind fun vs ws hvs => ?_
      refine Follows.imp (R := Shared V) ?_ fun _ _ => Role.Relates.of_shared
      cases handed with
      | false =>
          cases hw with
          | value hdata =>
              cases w with
              | func g => exact hhost g _ (hcall g _ hdata) I hI n vs ws hvs
              | _ => exact Follows.fail
      | true =>
          cases hw with
          | function hfg =>
              rw [hone rfl] at hvs
              cases hvs with
              | cons hvw hnil =>
                  cases hnil
                  obtain ⟨hdata, rfl⟩ := alike_false.1 hvw
                  exact hfg n _ hdata
  | evaluated kind source result byMethod p _ ih =>
      refine Follows.imp ?_ fun _ _ => Role.Relates.of_shared
      refine evaluation_follows hdual (ih.imp fun w w' hw => ?_)
      cases hw with
      | value hdata => exact ⟨hdata, rfl⟩
  | evaluatedChoice _ _ _ _ hb => exact hb.elim
  | conversionKept _ _ _ _ hkept => exact absurd trivial hkept
  | @conversionDropped r r' kind source result ty _ _ ih =>
      refine Follows.congr (evaluate_conversion ..) (fun E => (bind_pure _).symm) ?_
      refine ih.bind fun w w' hw => ?_
      cases hw with
      | @dual d g hfun =>
          rw [expect_dual]
          show Follows _ _ _ (do return Datum.func (← (machine host n).function d)) _
          refine Ensures.bind (hfun n) fun f hf => ?_
          exact Follows.pure (.function hf)
  | paramKept _ _ _ _ _ hb => exact hb.elim
  | paramDropped _ _ _ _ _ hb => exact hb.elim
  | kept hkept => exact absurd trivial hkept
  | @replaced d _ hd => exact literal_follows hI (hD d hd) n
  | @conditional ρ test test' y y' z z' _ _ _ iht ihy ihz =>
      refine iht.bind (g := fun E w => do
        if ← Act.lift (Value.expectBool "?:" w) then evaluate E _ y' else evaluate E _ z')
        fun w w' hw => ?_
      cases hw with
      | value _ =>
          refine expectBool_follows "?:" fun b => ?_
          cases b with
          | true => exact ihy
          | false => exact ihz

/-! ## What does not survive -/

/-- The chosen branches are functions. -/
theorem Resolved.func_of_choice {kind : DualKind} (h : Resolved V form D (fun _ => True) broken ρ t u)
    (hρ : ρ = .dual kind) {s s' : Store} {v : Value} (hv : evaluate E σ u s = .ok v s') :
    ∃ g, v = .func g := by
  induction h generalizing s s' with
  | kept hkept => exact absurd trivial hkept
  | replaced =>
      obtain ⟨f, s₁, _, hf⟩ := Act.bind_eq_ok.1 hv
      exact ⟨f, (Act.pure_eq_ok.1 hf).1.symm⟩
  | conditional _ _ _ _ ihx ihy =>
      obtain ⟨w, s₁, _, hrest⟩ := Act.bind_eq_ok.1 hv
      obtain ⟨b, s₂, _, hbranch⟩ := Act.bind_eq_ok.1 hrest
      cases b with
      | true => exact ihx hρ hbranch
      | false => exact ihy hρ hbranch
  | _ => cases hρ

theorem expect_func (kind : DualKind) (f : Func) (s s' : Store) (d : Dual) :
    Act.lift (Dual.expect kind (.func f)) s ≠ .ok d s' := by
  intro h
  cases (expect_ok (Act.lift_eq_ok.1 h).1).1

/-- An evaluation that expects a dual returns nothing where it gets a function. -/
theorem evaluation_of_func {kind : DualKind} {source result : Ty} {byMethod : Bool} {r a : Expr}
    (hr : ∀ s v s', evaluate E σ r s = .ok v s' → ∃ g, v = .func g) (s : Store) (w : Value)
    (s' : Store) : evaluate E σ (Tree.evaluation kind source result byMethod r a) s ≠ .ok w s' := by
  intro h
  cases byMethod with
  | false =>
      rw [evaluate_evaluation_invoked] at h
      obtain ⟨v, s₁, hv, h⟩ := Act.bind_eq_ok.1 h
      obtain ⟨g, rfl⟩ := hr _ _ _ hv
      obtain ⟨d, s₂, hd, _⟩ := Act.bind_eq_ok.1 h
      exact expect_func _ _ _ _ _ hd
  | true =>
      rw [evaluate_evaluation_called] at h
      obtain ⟨v, s₁, hv, h⟩ := Act.bind_eq_ok.1 h
      obtain ⟨g, rfl⟩ := hr _ _ _ hv
      obtain ⟨_, s₂, _, h⟩ := Act.bind_eq_ok.1 h
      obtain ⟨d, s₃, hd, _⟩ := Act.bind_eq_ok.1 h
      exact expect_func _ _ _ _ _ hd

/-- Applying what is no function returns nothing. -/
theorem invoke_of_dual {x : Param} {d : Dual} {args : List Expr} (s : Store) (w : Value) (s' : Store) :
    evaluate E [(x, .dual d)] (.invoke (.param x) args) s ≠ .ok w s' := by
  intro h
  rw [evaluate_invoke, evaluate_own] at h
  obtain ⟨v, s₁, hv, h⟩ := Act.bind_eq_ok.1 h
  obtain ⟨rfl, _⟩ := Act.pure_eq_ok.1 hv
  obtain ⟨_, s₂, _, h⟩ := Act.bind_eq_ok.1 h
  cases h

/-- Where the body returns nothing, the compiled lambda does not either. -/
theorem compute_never {x : Param} {t : Expr} {v : Value}
    (h : ∀ n s w s', evaluate (machine host n) [(x, v)] t s ≠ .ok w s') (n : Nat) (s : Store) (w : Value)
    (s' : Store) : Lambda.compute (machine host n) ⟨[x], t⟩ v s ≠ .ok w s' := by
  intro hw
  obtain ⟨f, s₁, hf, hcall⟩ := Act.bind_eq_ok.1 hw
  cases hf
  cases n with
  | zero => cases hcall
  | succ n => exact h n _ _ _ hcall

/-- A compiled lambda follows another one where the bodies do. -/
theorem compute_follows (hI : Stable I) {x : Param} {t u : Expr} {v : Value} {R : Value → Value → Prop}
    (h : ∀ n, Follows host I R (evaluate (machine host n) [(x, v)] t) fun E => evaluate E [(x, v)] u)
    (n : Nat) : Follows host I R (Lambda.compute (machine host n) ⟨[x], t⟩ v)
      fun E => Lambda.compute E ⟨[x], u⟩ v := by
  refine compiled_follows hI (p := x) rfl ?_
  refine (newFunc_ensures hI 1 (.closure ⟨[x], t⟩ [])).bind ?_
  rintro _ ⟨id, rfl⟩
  cases n with
  | zero => exact Follows.exhausted
  | succ n => exact h n

/-! ## The pipeline -/

/-- **Which choices at run time survive the pipeline.** The pipeline succeeds on every lambda over
host code whose references are evaluations and conversions of its parameter and of literal duals
chosen by conditions, and settles on one result. If the lambda evaluates only parameters and
converts only chosen duals, whatever the compiled lambda returns, the compiled result returns as
well, wherever it is run. An evaluation of a chosen dual on the other hand never returns anything
after the pipeline, and neither does the application of the converted parameter to an argument on
any dual. -/
theorem rewriteLambda_choices (hV : V.Closed) (hhost : V.Respected host) (hcall : V.Callable)
    (hI : Stable I) (hD : ∀ d, D d → Agrees host I V d (form d)) (x : Param) :
    (∀ t, Choosing V D True .value t → ∃ u,
      Exactly host I (fun E => rewriteLambda E ⟨[x], t⟩) ⟨[x], u⟩ ∧
        (Choosing V D False .value t → ∀ v, (x.ty.wrapper? = none → V.data v) →
          (∀ d, v = .dual d → Reproducible host I V d) →
          ∀ n s w s₁, I s → Lambda.compute (machine host n) ⟨[x], t⟩ v s = .ok w s₁ →
            I s₁ ∧ ∀ s₂, I s₂ → ∃ s₃, Reaches host (fun E => Lambda.compute E ⟨[x], u⟩ v) s₂ w s₃)) ∧
    (∀ kind source result byMethod test a b arg,
      Choosing V D True (.dual kind) (.conditional test a b) → Choosing V D True .value arg → ∃ u,
        Exactly host I (fun E => rewriteLambda E
          ⟨[x], Tree.evaluation kind source result byMethod (.conditional test a b) arg⟩) ⟨[x], u⟩ ∧
          ∀ n v s w s₁, Lambda.compute (machine host n) ⟨[x], u⟩ v s ≠ .ok w s₁) ∧
    (∀ kind source result ty arg, Choosing V D True .value arg → ∃ u,
      Exactly host I (fun E => rewriteLambda E
        ⟨[x], .invoke (Tree.conversion kind source result ty (.param x)) [arg]⟩) ⟨[x], u⟩ ∧
        ∀ n d s w s₁, Lambda.compute (machine host n) ⟨[x], u⟩ (.dual d) s ≠ .ok w s₁) := by
  have hforms : ∀ d, D d → (form d).tree.Settled := fun d hd => (hD d hd).settled
  have htree : ∀ d, D d → Exactly host I (fun E => E.tree d) (form d) := fun d hd => (hD d hd).tree
  refine ⟨fun t ht => ?_, ?_, ?_⟩
  · obtain ⟨u, _, hrun⟩ := rewriteLambda_resolved hforms (x := x) ht host
    refine ⟨u, hrun I htree, fun ht' v hv hdual n s w s₁ hs hw => ?_⟩
    obtain ⟨u', hu', hrun'⟩ := rewriteLambda_resolved hforms (x := x) ht' host
    obtain ⟨s', ⟨N, hN⟩, _⟩ := (hrun' I htree).settles s hs
    -- The pipeline settles on one result, so what holds of the tree in the narrower reading holds of `u`.
    have hsame := ((hrun I htree).ensures N).result s _ _ hs (hN N (Nat.le_refl _))
    cases hsame
    have hfollows := compute_follows hI
      (hu'.follows hV hhost hcall hI hD hv hdual) n
    refine ⟨hfollows.keeps.ok hw hs, fun s₂ hs₂ => ?_⟩
    obtain ⟨w', s₃, hreach, _, hrelated⟩ := hfollows.result s w s₁ hs hw s₂ hs₂
    cases hrelated with
    | value => exact ⟨s₃, hreach⟩
  · intro kind source result byMethod test a b arg hchoice harg
    obtain ⟨u, hu, hrun⟩ := rewriteLambda_resolved hforms (x := x)
      (.evaluatedChoice kind source result byMethod trivial hchoice harg) host
    obtain ⟨_, _, _, r, arg', rfl, hr⟩ := hu.of_evaluatedChoice
    refine ⟨_, hrun I htree, fun n v => compute_never (fun n => ?_) n⟩
    exact evaluation_of_func fun s v s' => hr.func_of_choice rfl
  · intro kind source result ty arg harg
    have hargs : ∀ a ∈ [arg], Choosing V D True .value a := fun a ha => by
      rw [List.mem_singleton.1 ha]; exact harg
    obtain ⟨u, hu, hrun⟩ := rewriteLambda_resolved hforms (x := x)
      (.invoke true (fun _ => rfl) (.convertedParam kind source result ty x trivial) hargs) host
    obtain ⟨args', rfl⟩ := hu.of_applied_param
    exact ⟨_, hrun I htree, fun n d => compute_never (fun n => invoke_of_dual) n⟩

/-! ## A choice between two duals -/

namespace Chosen

/-- Parameters of the lambdas. -/
def y : Param := ⟨0, "y", .int⟩
def z : Param := ⟨1, "z", .int⟩
def p : Param := ⟨2, "p", .projection .int .int⟩

/-- Scalars as data, and no host functions. -/
def vocabulary : Vocabulary where
  data v := v.isScalar = true
  host _ _ := False

/-- The dual of `y => y + 1`. -/
def successor : Dual :=
  ⟨0, .projection, .int, .int, .lambda ⟨[y], .operation .add (.param y) (Tree.constant (.int 1))⟩⟩

/-- The dual of `z => z * 2`. -/
def double : Dual :=
  ⟨1, .projection, .int, .int, .lambda ⟨[z], .operation .mul (.param z) (Tree.constant (.int 2))⟩⟩

/-- The store after both have been made. -/
def store : Store := { Store.initial with nextId := 2 }

/-- The parameter, evaluated. -/
def received (byMethod : Bool) (k : Int64) : Expr :=
  Tree.evaluation .projection .int .int byMethod (.param p) (Tree.constant (.int k))

/-- `p.evaluate(1) > 1 ? double : successor`. -/
def choice : Expr :=
  .conditional (.operation .greater (received false 1) (Tree.constant (.int 1))) double.literal
    successor.literal

/-- `((int → int)(p.evaluate(1) > 1 ? double : successor))(p.evaluate(3))`. -/
def body : Expr :=
  .invoke (Tree.conversion .projection .int .int (.func [.int] .int) choice) [received true 3]

theorem closed : vocabulary.Closed := ⟨fun _ h => h, fun _ _ _ _ _ h => by cases h⟩

theorem respected (host : Host) : vocabulary.Respected host := fun _ _ h => h.elim

theorem callable : vocabulary.Callable := fun _ _ h => by cases h

/-- An operation on two values. -/
theorem operands {α : Type} {W : Bool → α → Prop} {a b : α} (ha : W false a) (hb : W false b) :
    ∀ q ∈ [(false, a), (false, b)], W q.1 q.2 := by
  intro q hq
  simp only [List.mem_cons, List.not_mem_nil, or_false] at hq
  rcases hq with rfl | rfl
  · exact ha
  · exact hb

theorem body_operation {C : Dual → Expr → Prop} {F : Dual → Prop} (op : BinaryOp) (q : Param)
    (hq : q.ty = .int) (k : Int64) :
    Body vocabulary C F false (.operation op (.param q) (Tree.constant (.int k))) :=
  .node [(false, .param q), (false, Tree.constant (.int k))] (.binary _ _ _) rfl rfl <|
    operands (W := Body vocabulary C F) (.param (by rw [hq]; rfl))
      (.node [] (.literal _ rfl) rfl rfl (by simp))

theorem assembled (host : Host) :
    ∃ form, Assembled host vocabulary form [double, successor] store := by
  have hfirst : History (Freshly host vocabulary) (Uses host vocabulary) [successor]
      { Store.initial with nextId := 1 } :=
    .make (.start fresh_initial) (.ofLambda .projection y (by simp) (body_operation .add y rfl 1)) rfl
  have hsecond : Freshly host vocabulary [successor] { Store.initial with nextId := 1 }
      (Dual.ofLambda .projection ⟨[z], .operation .mul (.param z) (Tree.constant (.int 2))⟩) := by
    refine .ofLambda .projection z (fun d hd h => ?_) (body_operation .mul z rfl 2)
    rw [List.mem_singleton.1 hd] at h
    cases takes_lambda rfl h
  obtain ⟨⟨form, h, _⟩, _⟩ := history_fresh closed (respected host) (.make hfirst hsecond rfl)
  exact ⟨form, h⟩

section Grammar

variable {D : Dual → Prop} {broken : Prop}

theorem choosing_constant (k : Int64) :
    Choosing vocabulary D broken .value (Tree.constant (.int k)) :=
  .node [] (.literal _ rfl) rfl rfl (by simp)

theorem choosing_received (byMethod : Bool) (k : Int64) :
    Choosing vocabulary D broken .value (received byMethod k) :=
  .evaluated _ _ _ _ _ (choosing_constant k)

theorem choosing_choice (hd : D double) (hs : D successor) :
    Choosing vocabulary D broken (.dual .projection) choice := by
  refine .conditional (.node [(false, received false 1), (false, Tree.constant (.int 1))]
    (.binary _ _ _) rfl rfl ?_) (.known hd) (.known hs)
  exact operands (W := fun b => Choosing vocabulary D broken (.operand b)) (choosing_received false 1)
    (choosing_constant 1)

theorem choosing_body (hd : D double) (hs : D successor) :
    Choosing vocabulary D broken .value body := by
  refine .invoke true (fun _ => rfl) (.converted _ _ _ _ (choosing_choice hd hs)) fun a ha => ?_
  rw [List.mem_singleton.1 ha]
  exact choosing_received true 3

end Grammar

/-- The lambda returns `double (successor 3)` on `successor`. -/
theorem compute_successor (host : Host) : ∃ s,
    Lambda.compute (machine host 6) ⟨[p], body⟩ (.dual successor) store = .ok (.int 8) s := by
  have hcall : ∀ id (k : Int64) s, (machine host 5).call
      ⟨id, 1, .closure ⟨[y], .operation .add (.param y) (Tree.constant (.int 1))⟩ []⟩ [.int k] s =
        .ok (.int (k + 1)) s := fun _ _ _ => rfl
  have hsuccessor : (machine host 5).function successor { store with nextId := 3 } = .ok _ _ :=
    function_first rfl Std.HashMap.getElem?_empty 4
  generalize hs₂ : (Slot.function successor).write _ _ = s₂ at hsuccessor
  have hnone : s₂.functions[1]? = none := by
    rw [← hs₂, functions_write, if_neg (by decide)]
    exact Std.HashMap.getElem?_empty
  have hdouble : (machine host 5).function double s₂ = .ok _ _ := function_first rfl hnone 4
  generalize hs₃ : (Slot.function double).write _ _ = s₃ at hdouble
  have hfound : (machine host 5).function successor s₃ =
      .ok ⟨3, 1, .closure ⟨[y], .operation .add (.param y) (Tree.constant (.int 1))⟩ []⟩ s₃ := by
    refine publishOnce_found ?_
    rw [← hs₃]
    refine (functions_write ..).trans ((if_neg (by decide)).trans ?_)
    show s₂.functions[0]? = _
    rw [← hs₂]
    exact (functions_write ..).trans (if_pos rfl)
  have hfirst : evaluate (machine host 5) [(p, .dual successor)] (received false 1)
      { store with nextId := 3 } = .ok (.int 2) s₂ := by
    unfold received
    rw [evaluate_evaluation_invoked, evaluate_own]
    exact (Act.bind_ok hsuccessor).trans (hcall 3 1 s₂)
  have hsecond : evaluate (machine host 5) [(p, .dual successor)] (received true 3) s₃ =
      .ok (.int 4) s₃ := by
    unfold received
    rw [evaluate_evaluation_called, evaluate_own]
    exact (Act.bind_ok hfound).trans (hcall 3 3 s₃)
  have htest : evaluate (machine host 5) [(p, .dual successor)]
      (.operation .greater (received false 1) (Tree.constant (.int 1))) { store with nextId := 3 } =
        .ok (.bool true) s₂ := (Act.bind_ok hfirst).trans rfl
  have hchoice : evaluate (machine host 5) [(p, .dual successor)] choice { store with nextId := 3 } =
      .ok (.dual double) s₂ := (Act.bind_ok htest).trans rfl
  have hfunction : evaluate (machine host 5) [(p, .dual successor)]
      (Tree.conversion .projection .int .int (.func [.int] .int) choice) { store with nextId := 3 } =
        .ok (.func ⟨s₂.nextId, 1,
          .closure ⟨[z], .operation .mul (.param z) (Tree.constant (.int 2))⟩ []⟩) s₃ := by
    rw [evaluate_conversion]
    refine (Act.bind_ok hchoice).trans ?_
    exact Act.bind_ok hdouble
  have hargs : evaluateAll (machine host 5) [(p, .dual successor)] [received true 3] s₃ =
      .ok [.int 4] s₃ := (Act.bind_ok hsecond).trans rfl
  refine ⟨s₃, ?_⟩
  show evaluate (machine host 5) [(p, .dual successor)] body { store with nextId := 3 } = _
  unfold body
  rw [evaluate_invoke]
  exact (Act.bind_ok hfunction).trans ((Act.bind_ok hargs).trans rfl)

end Chosen

/-- The lambda that converts the chosen dual computes the same after the pipeline, while the
evaluation of the same choice returns nothing any more. -/
theorem rewriteLambda_choices_received :
    (∃ u s₁ s₂ s₃,
      Reaches Registry.empty.host (fun E => rewriteLambda E ⟨[Chosen.p], Chosen.body⟩) Chosen.store
        ⟨[Chosen.p], u⟩ s₁ ∧
      Lambda.compute (machine Registry.empty.host 6) ⟨[Chosen.p], Chosen.body⟩ (.dual Chosen.successor)
        Chosen.store = .ok (.int 8) s₂ ∧
      Reaches Registry.empty.host
        (fun E => Lambda.compute E ⟨[Chosen.p], u⟩ (.dual Chosen.successor)) s₂ (.int 8) s₃) ∧
    ∃ u s₁, Reaches Registry.empty.host (fun E => rewriteLambda E ⟨[Chosen.p],
        Tree.evaluation .projection .int .int false Chosen.choice (Chosen.received true 3)⟩)
        Chosen.store ⟨[Chosen.p], u⟩ s₁ ∧
      ∀ n v s w s₁, Lambda.compute (machine Registry.empty.host n) ⟨[Chosen.p], u⟩ v s ≠ .ok w s₁ := by
  obtain ⟨form, hassembled⟩ := Chosen.assembled Registry.empty.host
  have hrespected := Chosen.respected Registry.empty.host
  have hI : Publishes (· ∈ [Chosen.double, Chosen.successor]) form Chosen.store Chosen.store :=
    hassembled.published
  obtain ⟨hsurvives, hnever, _⟩ := rewriteLambda_choices Chosen.closed hrespected Chosen.callable
    (publishes_stable Chosen.store) (fun d hd => hassembled.agrees Chosen.closed hrespected hd) Chosen.p
  have hd : Chosen.double ∈ [Chosen.double, Chosen.successor] := List.mem_cons_self ..
  have hs : Chosen.successor ∈ [Chosen.double, Chosen.successor] := by simp
  obtain ⟨u, hrun, hsame⟩ := hsurvives _ (Chosen.choosing_body hd hs)
  obtain ⟨s₁, hreach, _⟩ := hrun.settles _ hI
  obtain ⟨s₂, hcompute⟩ := Chosen.compute_successor Registry.empty.host
  obtain ⟨hI₂, hresults⟩ := hsame (Chosen.choosing_body hd hs) (.dual Chosen.successor)
    (fun h => by cases h) (fun d h => by
      cases h
      exact hassembled.reproducible Chosen.closed hrespected hs) 6 _ _ _ hI hcompute
  obtain ⟨s₃, hresult⟩ := hresults s₂ hI₂
  refine ⟨⟨u, s₁, s₂, s₃, hreach, hcompute, hresult⟩, ?_⟩
  obtain ⟨u', hrun', hstuck⟩ := hnever .projection .int .int false _ _ _ _
    (Chosen.choosing_choice hd hs) (Chosen.choosing_received true 3)
  obtain ⟨s₁', hreach', _⟩ := hrun'.settles _ hI
  exact ⟨u', s₁', hreach', hstuck⟩

end DualForm
