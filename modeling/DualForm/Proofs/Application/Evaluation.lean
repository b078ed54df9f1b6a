import DualForm.Proofs.Application.Echoes
import DualForm.Proofs.Steps

/-!
# Evaluation in two runs

One lemma for each thing evaluation does with values: reading members (`read_echoes`), running methods
(`method_echoes`), making duals and binding factories (`bindArguments_echoes`).

Principal result: `evaluate_echoes` — coupled trees are evaluated alike in coupled scopes.
-/

namespace DualForm

open Act (Keeps)
open Value (Coupled AllCoupled FieldsCoupled)

variable {host : Host} {C : Contract} {U : View → Prop} {S : Regime} {E : Engine} {W : Tandem}
  {v w : Value} {vs ws : List Value} {target target' : Option Value} {α β : Type}

/-! ## Duals and factories -/

theorem dual_echoes (kind : DualKind) (hv : Coupled W.pairs v w) :
    Echoes host C U S DualPaired E W (fun _ => Act.lift (Dual.expect kind v))
      fun _ => Act.lift (Dual.expect kind w) :=
  .assuming fun hW => .lift (hW.faithful.expect_coupled kind hv)

/-- The function form of the dual a value holds. -/
theorem functionOf_echoes (hE : E.Echoes host C U S) (kind : DualKind) (hv : Coupled W.pairs v w) :
    Echoes host C U S Coupled E W
      (fun E => (do return .func (← E.function (← Act.lift (Dual.expect kind v)))))
      fun E => (do return .func (← E.function (← Act.lift (Dual.expect kind w)))) :=
  (dual_echoes kind hv).bind (fun _ => (hE.keeps.function _).bind fun _ => .pure _) fun _ _ _ _ hd =>
    (hE.function hd).bind (fun _ => .pure _) fun _ _ _ _ hf => .pure (.func hf)

theorem evaluate_dual_echoes (hE : E.Echoes host C U S) {d e : Dual} (hd : W.pairs (.dual d) (.dual e))
    (hv : Coupled W.pairs v w) :
    Echoes host C U S Coupled E W (fun E => d.evaluate E v) fun E => e.evaluate E w :=
  (hE.function hd).bind (fun f => hE.keeps.call f [v]) fun _ hle _ _ hf =>
    hE.call hf (.cons (hle.value hv) .nil)

theorem checkSameSource_coupled (hW : W.Sound C U) {d e d' e' : Dual} (hd : W.pairs (.dual d) (.dual d'))
    (he : W.pairs (.dual e) (.dual e')) :
    ExceptRelated Eq (Dual.checkSameSource d e) (Dual.checkSameSource d' e') := by
  unfold Dual.checkSameSource
  rw [← (hW.dual hd).source, ← (hW.dual he).source, ← hW.faithful.dual hd, ← hW.faithful.dual he]
  split
  · exact .ok rfl
  · exact .error _

/-- Two specifications under an operator. -/
theorem combination_echoes (hS : S.Durable C U) {make : Dual → Dual → Origin}
    (hmake : ∀ {P : Pairing} {d e d' e' : Dual}, P (.dual d) (.dual d') → P (.dual e) (.dual e') →
      Origin.Coupled C U P (make d e) (make d' e'))
    {d e d' e' : Dual} (hd : W.pairs (.dual d) (.dual d')) (he : W.pairs (.dual e) (.dual e')) :
    Echoes host C U S DualPaired E W
      (fun _ => (do
        Act.lift (Dual.checkSameSource d e)
        Dual.create .specification d.source .bool (make d e)))
      fun _ => (do
        Act.lift (Dual.checkSameSource d' e')
        Dual.create .specification d'.source .bool (make d' e')) := by
  refine .assuming fun hW => ?_
  rw [← (hW.dual hd).source]
  refine (Echoes.lift (R := fun _ => Eq) (checkSameSource_coupled hW hd he)).bind
    (fun _ => (create_concur hS.lasting.identity ..).keeps) fun V hle _ _ _ => ?_
  exact create_echoes hS _ _ _ (hmake (hle.pairs _ _ hd) (hle.pairs _ _ he))

theorem negation_echoes (hS : S.Durable C U) {d d' : Dual} (hd : W.pairs (.dual d) (.dual d')) :
    Echoes host C U S DualPaired E W (fun _ => Dual.negation d) fun _ => Dual.negation d' := by
  refine .assuming fun hW => ?_
  unfold Dual.negation
  rw [← (hW.dual hd).source]
  exact create_echoes hS _ _ _ (.negation hd)

/-- A dual made of two specifications that values hold. -/
theorem operands_echoes {x y x' y' : Value} {make : Dual → Dual → Act Dual}
    (hkeeps : ∀ d e, (make d e).Keeps S.beyond)
    (hmake : ∀ {W : Tandem} {d e d' e' : Dual}, W.pairs (.dual d) (.dual d') → W.pairs (.dual e) (.dual e') →
      Echoes host C U S DualPaired E W (fun _ => make d e) fun _ => make d' e')
    (hx : Coupled W.pairs x x') (hy : Coupled W.pairs y y') :
    Echoes host C U S Coupled E W
      (fun _ => (do
        let lhs ← Act.lift (Dual.expect .specification x)
        let rhs ← Act.lift (Dual.expect .specification y)
        return .dual (← make lhs rhs)))
      fun _ => (do
        let lhs ← Act.lift (Dual.expect .specification x')
        let rhs ← Act.lift (Dual.expect .specification y')
        return .dual (← make lhs rhs)) :=
  (dual_echoes _ hx).bind (fun d => (Keeps.lift _).bind fun e => (hkeeps d e).bind fun _ => .pure _)
    fun _ hle d _ hd => (dual_echoes _ (hle.value hy)).bind (fun e => (hkeeps d e).bind fun _ => .pure _)
      fun _ hle' _ _ he => (hmake (hle'.pairs _ _ hd) he).bind (fun _ => .pure _)
        fun _ _ _ _ hc => .pure (.dual hc)

/-- A function without parameters is an accessor on both sides, or on neither. -/
theorem ofRuntime_coupled (hW : W.Sound C U) (ty : Ty) (hv : Coupled W.pairs v w) :
    Argument.Coupled W.pairs (.ofRuntime v ty) (.ofRuntime w ty) := by
  cases hv with
  | @func f g hf =>
      unfold Argument.ofRuntime
      dsimp only
      rw [← hW.faithful.arity hf]
      split
      · exact .deferred hf
      · exact .value (.func hf)
  | scalar hs => cases v <;> first | exact .value (.scalar rfl) | exact absurd hs Bool.false_ne_true
  | list hvs => exact .value (.list hvs)
  | record declaring hid hfs => exact .value (.record declaring hid hfs)
  | dual hd => exact .value (.dual hd)
  | factory hk => exact .value (.factory hk)

theorem ofRuntimes_coupled (hW : W.Sound C U) : ∀ {vs ws : List Value} (tys : List Ty),
    AllCoupled W.pairs vs ws → List.Forall₂ (Argument.Coupled W.pairs)
      ((vs.zip tys).map fun (arg, ty) => .ofRuntime arg ty)
      ((ws.zip tys).map fun (arg, ty) => .ofRuntime arg ty)
  | _, _, [], _ => by
      rw [List.zip_nil_right, List.zip_nil_right]
      exact .nil
  | _, _, _ :: _, .nil => .nil
  | _, _, ty :: tys, .cons hv hvs => .cons (ofRuntime_coupled hW ty hv) (ofRuntimes_coupled hW tys hvs)

theorem Bindings.Coupled.append {P : Pairing} {bs cs bs' cs' : Bindings} (h : Bindings.Coupled P bs cs)
    (h' : Bindings.Coupled P bs' cs') : Bindings.Coupled P (bs ++ bs') (cs ++ cs') :=
  List.rel_append h h'

/-- The dual of a factory whose parameters are all bound. -/
theorem realize_echoes (hS : S.Durable C U) {k l : Factory} {bs cs : Bindings}
    (hk : Factory.Coupled C W.pairs k l) (hbs : Bindings.Coupled W.pairs bs cs) :
    Echoes host C U S Coupled E W (fun _ => k.realize bs) fun _ => l.realize cs := by
  unfold Factory.realize
  rw [← hk.kind, ← hk.source, ← hk.result, ← hk.builders]
  exact (create_echoes hS _ _ _ (.bound hk.within hbs)).bind (fun _ => .pure _)
    fun _ _ _ _ hd => .pure (.dual hd)

/-- **Binding leading parameters of factories that stand for each other.** -/
theorem bindArguments_echoes (hS : S.Durable C U) {k l : Factory} {as bs : List Argument}
    (hkl : W.pairs (.factory k) (.factory l)) (has : List.Forall₂ (Argument.Coupled W.pairs) as bs) :
    Echoes host C U S Coupled E W (fun _ => k.bindArguments as) fun _ => l.bindArguments bs := by
  refine .assuming fun hW => ?_
  have hk := hW.factory hkl
  have hlength : as.length = bs.length := has.length_eq
  have hother : Echoes host C U S Coupled E W
      (fun _ => Act.fail (.arityMismatch k.arity as.length))
      fun _ => Act.fail (.arityMismatch l.arity bs.length) := by
    unfold Factory.arity Factory.openParams
    rw [hlength, hk.next, hk.second]
    exact .fail _
  unfold Factory.bindArguments
  rw [← hk.second, ← hk.next]
  cases hsecond : k.second with
  | none =>
      rcases has with _ | ⟨ha, _ | ⟨hb, hrest⟩⟩
      · exact hother
      · exact realize_echoes hS hk (hk.bound.append (.cons ⟨rfl, ha⟩ .nil))
      · exact hother
  | some second =>
      rcases has with _ | @⟨x, y, _, _, ha, _ | ⟨hb, _ | ⟨hc, hrest⟩⟩⟩
      · exact hother
      · have hbound : Bindings.Coupled W.pairs (k.bound ++ [(k.next, x)]) (l.bound ++ [(k.next, y)]) :=
          hk.bound.append (.cons ⟨rfl, ha⟩ .nil)
        refine (freshId_echoes hS
          (x := fun i => .factory
            { k with id := i, bound := k.bound ++ [(k.next, x)], next := second, second := none })
          (y := fun i => .factory
            { l with id := i, bound := l.bound ++ [(k.next, y)], next := second, second := none })
          (fun _ => rfl) (fun _ => rfl) fun _ _ => .factory
            ⟨hk.kind, hk.builders, hk.within, hbound, rfl, rfl, hk.source, hk.result⟩).bind (fun _ => .pure _)
          fun _ _ _ _ hij => ?_
        exact .pure (.factory hij)
      · exact realize_echoes hS hk (hk.bound.append (.cons ⟨rfl, ha⟩ (.cons ⟨rfl, hb⟩ .nil)))
      · exact hother

/-! ## Members and methods -/

theorem read_keeps (hE : E.Echoes host C U S) (m : Member Getter) (target : Option Value) :
    (m.read E target).Keeps S.beyond := (read_concur hE.keeps.concur m target).keeps

theorem memberAccess_echoes {R : Pairing → α → β → Prop} (name : String) (hv : Coupled W.pairs v w) :
    Echoes host C U S R E W (fun _ => Act.fail (.memberAccess name v.text))
      fun _ => Act.fail (.memberAccess name w.text) := by
  refine .assuming fun hW => ?_
  rw [hW.faithful.text_eq hv]
  exact .fail _

theorem field_echoes (name : String) {declaring : DeclaringType} {fs gs : List (String × Value)}
    (hfs : FieldsCoupled W.pairs fs gs) :
    Echoes host C U S Coupled E W
      (fun _ => match Datum.fieldOf? fs name with
        | some v => pure v
        | none => Act.fail (.memberAccess name declaring.name))
      fun _ => match Datum.fieldOf? gs name with
        | some v => pure v
        | none => Act.fail (.memberAccess name declaring.name) := by
  rcases hfs.fieldOf? name with ⟨hf, hg⟩ | ⟨v, w, hf, hg, hvw⟩
  · rw [hf, hg]
    exact .fail _
  · rw [hf, hg]
    exact .pure hvw

theorem read_echoes (hE : E.Echoes host C U S) {m n : Member Getter} (hm : Member.Coupled W.pairs m n)
    (ht : Option.Rel (Coupled W.pairs) target target') :
    Echoes host C U S Coupled E W (fun E => m.read E target) fun E => n.read E target' := by
  obtain ⟨⟨declaring, name, ty, kind, isStatic⟩, getter⟩ := m
  obtain ⟨signature, getter'⟩ := n
  obtain ⟨rfl, hgetter⟩ := hm
  dsimp only at hgetter
  cases ht with
  | none =>
      cases isStatic with
      | false => exact .fail _
      | true =>
          cases hgetter with
          | fixed hv => exact .pure hv
          | computed hf => exact hE.call hf .nil
          | field | property | evaluator => exact .fail _
  | @some v w hv =>
      cases isStatic with
      | true => exact memberAccess_echoes name hv
      | false =>
          cases hgetter with
          | property hf => exact hE.call hf (.cons hv .nil)
          | fixed hw => exact .pure hw
          | computed hf => exact hE.call hf .nil
          | evaluator kind => exact functionOf_echoes hE kind hv
          | field =>
              cases hv with
              | record declaring hid hfs => exact field_echoes name hfs
              | scalar hs => cases v <;> first | exact .fail _ | exact absurd hs Bool.false_ne_true
              | list hvs => exact memberAccess_echoes name (.list hvs)
              | func hf => exact memberAccess_echoes name (.func hf)
              | dual hd => exact memberAccess_echoes name (.dual hd)
              | factory hk => exact memberAccess_echoes name (.factory hk)

theorem onTarget_echoes {run run' : Engine → Value → Act Value} {m n : Method Invoker}
    (hname : m.name = n.name) (ht : Option.Rel (Coupled W.pairs) target target')
    (h : ∀ v w, Coupled W.pairs v w → Echoes host C U S Coupled E W (fun E => run E v) fun E => run' E w) :
    Echoes host C U S Coupled E W (fun E => m.onTarget target (run E))
      fun E => n.onTarget target' (run' E) := by
  cases ht with
  | none =>
      unfold Method.onTarget
      rw [hname]
      exact .fail _
  | some hv => exact h _ _ hv

theorem Invoker.Coupled.arity?_eq {P : Pairing} {i j : Invoker} (h : Invoker.Coupled P i j) :
    i.arity? = j.arity? := by
  cases h <;> rfl

theorem Method.Coupled.takes_iff {P : Pairing} {m n : Method Invoker} (h : Method.Coupled P m n) {count : Nat} :
    m.Takes count ↔ n.Takes count := by
  rw [Method.Takes, Method.Takes, h.signature, h.invoker.arity?_eq]

theorem method_keeps (hS : S.Durable C U) (hE : E.Echoes host C U S) (m : Method Invoker)
    (target : Option Value) (args : List Value) : (m.invoke E target args).Keeps S.beyond :=
  (invoke_concur hS.lasting.identity hE.keeps.concur m target args).keeps

/-- Binding parameters of the factory a value holds. -/
theorem bind_echoes (hS : S.Durable C U) (tys : List Ty) (hv : Coupled W.pairs v w)
    (hvs : AllCoupled W.pairs vs ws) :
    Echoes host C U S Coupled E W
      (fun _ => match Value.factory? v with
        | some k => k.bindArguments ((vs.zip tys).map fun (arg, ty) => .ofRuntime arg ty)
        | none => Act.fail (.typeMismatch "factory" (Value.ty v).text))
      fun _ => match Value.factory? w with
        | some k => k.bindArguments ((ws.zip tys).map fun (arg, ty) => .ofRuntime arg ty)
        | none => Act.fail (.typeMismatch "factory" (Value.ty w).text) := by
  refine .assuming fun hW => ?_
  rw [hW.faithful.ty_eq hv]
  cases hv with
  | factory hk => exact bindArguments_echoes hS hk (ofRuntimes_coupled hW tys hvs)
  | scalar hs => cases v <;> first | exact .fail _ | exact absurd hs Bool.false_ne_true
  | list | record | func | dual => exact .fail _

theorem method_echoes (hS : S.Durable C U) (hE : E.Echoes host C U S) {m n : Method Invoker}
    (hm : Method.Coupled W.pairs m n) (ht : Option.Rel (Coupled W.pairs) target target')
    (hvs : AllCoupled W.pairs vs ws) :
    Echoes host C U S Coupled E W (fun E => m.invoke E target vs) fun E => n.invoke E target' ws := by
  by_cases htakes : m.Takes vs.length
  · obtain ⟨signature, invoker⟩ := m
    obtain ⟨signature', invoker'⟩ := n
    obtain ⟨rfl, hinvoker⟩ := hm
    dsimp only at hinvoker
    unfold Method.invoke
    rw [← hvs.length]
    simp only [if_neg (not_not.2 htakes.1)]
    cases hinvoker with
    | function hf => exact hE.call hf hvs
    | method hf => exact onTarget_echoes rfl ht fun v w hv => hE.call hf (.cons hv hvs)
    | bind => exact onTarget_echoes rfl ht fun v w hv => bind_echoes hS _ hv hvs
    | evaluate kind =>
        obtain ⟨x, y, rfl, rfl, hx⟩ := hvs.single (htakes.2 1 rfl)
        refine onTarget_echoes rfl ht fun v w hv => (dual_echoes kind hv).bind (fun d => ?_)
          fun _ hle _ _ hd => evaluate_dual_echoes hE hd (hle.value hx)
        exact (evaluate_dual_concur hE.keeps.concur d _).keeps
    | toFunction kind =>
        obtain ⟨x, y, rfl, rfl, hx⟩ := hvs.single (htakes.2 1 rfl)
        exact functionOf_echoes hE kind hx
    | negation =>
        obtain ⟨x, y, rfl, rfl, hx⟩ := hvs.single (htakes.2 1 rfl)
        refine (dual_echoes _ hx).bind (fun d => ?_) fun _ _ _ _ hd =>
          (negation_echoes hS hd).bind (fun _ => .pure _) fun _ _ _ _ hd => .pure (.dual hd)
        exact (negation_concur hS.lasting.identity d).keeps.bind fun _ => .pure _
    | conjunction =>
        obtain ⟨x, x', y, y', rfl, rfl, hx, hx'⟩ := hvs.pair (htakes.2 2 rfl)
        exact operands_echoes (fun d e => (conjunction_concur hS.lasting.identity d e).keeps)
          (combination_echoes hS .conjunction) hx hx'
    | disjunction =>
        obtain ⟨x, x', y, y', rfl, rfl, hx, hx'⟩ := hvs.pair (htakes.2 2 rfl)
        exact operands_echoes (fun d e => (disjunction_concur hS.lasting.identity d e).keeps)
          (combination_echoes hS .disjunction) hx hx'
  · have htakes' : ¬ n.Takes ws.length := fun h => htakes (hm.takes_iff.2 (hvs.length ▸ h))
    simp only [invoke_refused htakes, invoke_refused htakes', hvs.length, hm.signature]
    exact .fail _

/-! ## Trees -/

theorem bool_echoes (context : String) (hv : Coupled W.pairs v w) :
    Echoes host C U S (fun _ => Eq) E W (fun _ => Act.lift (Value.expectBool context v))
      fun _ => Act.lift (Value.expectBool context w) := by
  refine .assuming fun hW => ?_
  rw [hW.faithful.expectBool_eq context hv]
  cases Value.expectBool context w with
  | ok b => exact .pure rfl
  | error e => exact .fail e

theorem tree_keeps (hS : S.Durable C U) (hE : E.Echoes host C U S) (σ : Scope) (t : Expr) :
    (evaluate E σ t).Keeps S.beyond :=
  (evaluate_concur hS.lasting.identity hE.keeps.concur σ t).keeps

theorem trees_keeps (hS : S.Durable C U) (hE : E.Echoes host C U S) (σ : Scope) (ts : List Expr) :
    (evaluateAll E σ ts).Keeps S.beyond :=
  (evaluateAll_concur ts fun t _ => evaluate_concur hS.lasting.identity hE.keeps.concur σ t).keeps

/-- A boolean, made of a value on either side. -/
theorem boolean_echoes (context : String) (hv : Coupled W.pairs v w) :
    Echoes host C U S Coupled E W (fun _ => (do return .bool (← Act.lift (Value.expectBool context v))))
      fun _ => (do return .bool (← Act.lift (Value.expectBool context w))) :=
  (bool_echoes context hv).bind (fun _ => .pure _) fun _ _ _ _ hbc => .pure (hbc ▸ .scalar rfl)

/-- An operand decides which of two actions is run. -/
theorem choice_echoes (context : String) {x y x' y' : Engine → Act Value} (hx : (x E).Keeps S.beyond)
    (hy : (y E).Keeps S.beyond) (hv : Coupled W.pairs v w)
    (hxx : ∀ V, W.Later V → Echoes host C U S Coupled E V x x')
    (hyy : ∀ V, W.Later V → Echoes host C U S Coupled E V y y') :
    Echoes host C U S Coupled E W
      (fun E => (do if ← Act.lift (Value.expectBool context v) then x E else y E))
      fun E => (do if ← Act.lift (Value.expectBool context w) then x' E else y' E) := by
  refine (bool_echoes context hv).bind (fun b => ?_) fun V hle b c hbc => ?_
  · cases b with
    | true => exact hx
    | false => exact hy
  · subst hbc
    cases b with
    | true => exact hxx V hle
    | false => exact hyy V hle

section Trees

set_option linter.unusedSectionVars false

variable {P : Pairing} {V : View} {Γ : Correspondence} {σ ρ : Scope}

/-- An operator without a method applies itself, or evaluates its second operand only if need be. -/
theorem operator_echoes (op : BinaryOp) {t u t' u' : Expr} (hkeeps : (evaluate E σ t').Keeps S.beyond)
    (ht : Echoes host C U S Coupled E W (fun E => evaluate E σ t) fun E => evaluate E ρ u)
    (ht' : ∀ X, W.Later X →
      Echoes host C U S Coupled E X (fun E => evaluate E σ t') fun E => evaluate E ρ u') :
    Echoes host C U S Coupled E W (fun E => evaluate E σ (.binary op t t' none))
      fun E => evaluate E ρ (.binary op u u' none) := by
  by_cases hand : op = .andAlso
  · subst hand
    simp only [evaluate_andAlso]
    refine ht.bind (fun a => (Keeps.lift _).bind fun b => ?_) fun X hle a b hab => choice_echoes "&&"
      (hkeeps.bind fun _ => (Keeps.lift _).bind fun _ => .pure _) (.pure _) hab
      (fun Y hle' => (ht' Y (hle.trans hle')).bind (fun _ => (Keeps.lift _).bind fun _ => .pure _)
        fun _ _ _ _ hcd => boolean_echoes "&&" hcd)
      fun _ _ => .pure (.scalar rfl)
    cases b with
    | true => exact hkeeps.bind fun _ => (Keeps.lift _).bind fun _ => .pure _
    | false => exact .pure _
  by_cases hor : op = .orElse
  · subst hor
    simp only [evaluate_orElse]
    refine ht.bind (fun a => (Keeps.lift _).bind fun b => ?_) fun X hle a b hab => choice_echoes "||"
      (.pure _) (hkeeps.bind fun _ => (Keeps.lift _).bind fun _ => .pure _) hab
      (fun _ _ => .pure (.scalar rfl)) fun Y hle' =>
        (ht' Y (hle.trans hle')).bind (fun _ => (Keeps.lift _).bind fun _ => .pure _)
        fun _ _ _ _ hcd => boolean_echoes "||" hcd
    cases b with
    | true => exact .pure _
    | false => exact hkeeps.bind fun _ => (Keeps.lift _).bind fun _ => .pure _
  · simp only [evaluate_strict hand hor]
    exact ht.bind (fun _ => hkeeps.bind fun _ => Keeps.lift _) fun X hle a b hab =>
      (ht' X hle).bind (fun _ => Keeps.lift _) fun Y hle' c d hcd =>
        .assuming fun hY => .lift (hY.faithful.applyBinary_coupled op (hle'.value hab) hcd)

/-- A function is called, anything else refused. -/
theorem invoked_echoes (hE : E.Echoes host C U S) : Coupled W.pairs v w → AllCoupled W.pairs vs ws →
    Echoes host C U S Coupled E W
      (fun E => match v with
        | .func f => E.call f vs
        | v => Act.fail (.typeMismatch "function" (Value.ty v).text))
      fun E => match w with
        | .func f => E.call f ws
        | v => Act.fail (.typeMismatch "function" (Value.ty v).text) := by
  refine fun hv hvs => .assuming fun hW => ?_
  have hty := hW.faithful.ty_eq hv
  cases hv with
  | func hf => exact hE.call hf hvs
  | scalar hs => cases v <;> first | exact .fail _ | exact absurd hs Bool.false_ne_true
  | list | record | dual | factory =>
      dsimp only
      rw [hty]
      exact .fail _

theorem invoked_keeps (hE : E.Echoes host C U S) (v : Value) (vs : List Value) :
    Keeps S.beyond (match v with
      | .func f => E.call f vs
      | v => Act.fail (.typeMismatch "function" (Value.ty v).text) : Act Value) := by
  split
  · exact hE.keeps.call _ _
  · exact .fail _

variable (hS : S.Durable C U) (hE : E.Echoes host C U S) (hV : U V) (hσ : V.holds .left σ)
  (hρ : V.holds .right ρ) (hread : ∀ {W : Tandem} {t u : Expr}, V.replaces t u →
    Echoes host C U S Coupled E W (fun E => evaluate E σ t) fun E => evaluate E ρ u)

include hS hE hV hσ hρ hread

mutual

/-- **Coupled trees are evaluated alike** in coupled scopes. -/
theorem evaluate_echoes : ∀ {Γ : Correspondence} {t u : Expr} {W : Tandem}, (∀ x y, P x y → W.pairs x y) →
    Scope.Coupled W.pairs Γ σ ρ → Tree.Coupled P V Γ t u →
    Echoes host C U S Coupled E W (fun E => evaluate E σ t) fun E => evaluate E ρ u
  | _, _, _, _, _, _, .replaced htu => hread htu
  | _, _, _, _, hP, _, .literal ty hv => .pure (hv.mono hP)
  | _, .param p, .param q, _, _, hscope, .param hpq => by
      have hlookup := hscope p q hpq
      show Echoes host C U S Coupled E _
        (fun _ => match σ.lookup? p with
          | some v => pure v
          | none => Act.fail (.unboundParameter p.name))
        fun _ => match ρ.lookup? q with
          | some v => pure v
          | none => Act.fail (.unboundParameter q.name)
      generalize σ.lookup? p = x at hlookup
      generalize ρ.lookup? q = y at hlookup
      cases hlookup with
      | none hname =>
          rw [hname]
          exact .fail _
      | some hv => exact .pure hv
  | _, _, _, _, hP, _, .staticMember hm => read_echoes hE (hm.mono hP) .none
  | _, _, _, _, hP, hscope, .member ht hm =>
      (evaluate_echoes hP hscope ht).bind (fun _ => read_keeps hE _ _) fun _ hle _ _ hv =>
        read_echoes hE (hm.mono fun x y hxy => hle.pairs x y (hP x y hxy)) (.some hv)
  | _, _, _, _, hP, hscope, .staticCall hm hts =>
      (evaluateAll_echoes hP hscope hts).bind (fun _ => method_keeps hS hE _ _ _) fun _ hle _ _ hvs =>
        method_echoes hS hE (hm.mono fun x y hxy => hle.pairs x y (hP x y hxy)) .none hvs
  | _, _, _, _, hP, hscope, .call ht hm hts =>
      (evaluate_echoes hP hscope ht).bind
        (fun _ => (trees_keeps hS hE σ _).bind fun _ => method_keeps hS hE _ _ _) fun _ hle _ _ hv =>
        (evaluateAll_echoes (fun x y hxy => hle.pairs x y (hP x y hxy)) (hle.scope hscope) hts).bind
          (fun _ => method_keeps hS hE _ _ _) fun _ hle' _ _ hvs =>
          method_echoes hS hE (hm.mono fun x y hxy => hle'.pairs x y (hle.pairs x y (hP x y hxy)))
            (.some (hle'.value hv)) hvs
  | _, _, _, _, hP, hscope, .binary op ht ht' (.some hm) => by
      simp only [evaluate_via]
      exact (evaluate_echoes hP hscope ht).bind
        (fun _ => (tree_keeps hS hE σ _).bind fun _ => method_keeps hS hE _ _ _) fun _ hle _ _ hv =>
        (evaluate_echoes (fun x y hxy => hle.pairs x y (hP x y hxy)) (hle.scope hscope) ht').bind
          (fun _ => method_keeps hS hE _ _ _) fun _ hle' _ _ hv' =>
          method_echoes hS hE (hm.mono fun x y hxy => hle'.pairs x y (hle.pairs x y (hP x y hxy))) .none
            (.cons (hle'.value hv) (.cons hv' .nil))
  | _, _, _, _, hP, hscope, .binary op ht ht' .none =>
      operator_echoes op (tree_keeps hS hE σ _) (evaluate_echoes hP hscope ht) fun _ hle =>
        evaluate_echoes (fun x y hxy => hle.pairs x y (hP x y hxy)) (hle.scope hscope) ht'
  | _, _, _, _, hP, hscope, .unary op ty ht (.some hm) =>
      (evaluate_echoes hP hscope ht).bind (fun _ => method_keeps hS hE _ _ _) fun _ hle _ _ hv =>
        method_echoes hS hE (hm.mono fun x y hxy => hle.pairs x y (hP x y hxy)) .none (.cons hv .nil)
  | _, _, _, _, hP, hscope, .unary op ty ht .none =>
      (evaluate_echoes hP hscope ht).bind (fun _ => Keeps.lift _) fun _ _ _ _ hv =>
        .assuming fun hX => .lift (hX.faithful.applyUnary_coupled op hv ty)
  | _, .lambda ps t, .lambda qs u, W, hP, hscope, .lambda hlength hps hqs hbody => by
      have hcode : Code.Coupled C U W.pairs ps.length (.closure ⟨ps, t⟩ σ) (.closure ⟨qs, u⟩ ρ) :=
        .closure hV rfl hlength.symm hps hqs hσ hρ hscope (hbody.mono hP)
      simp only [evaluate]
      rw [← hlength]
      exact (newFunc_echoes hS hcode).bind (fun _ => .pure _) fun _ _ _ _ hf => .pure (.func hf)
  | _, _, _, _, hP, hscope, .invoke ht hts => by
      simp only [evaluate_invoke]
      exact (evaluate_echoes hP hscope ht).bind
        (fun _ => (trees_keeps hS hE σ _).bind fun _ => invoked_keeps hE _ _) fun _ hle _ _ hv =>
        (evaluateAll_echoes (fun x y hxy => hle.pairs x y (hP x y hxy)) (hle.scope hscope) hts).bind
          (fun _ => invoked_keeps hE _ _) fun _ hle' _ _ hvs => invoked_echoes hE (hle'.value hv) hvs
  | _, _, _, _, hP, hscope, .conditional ht ht₁ ht₂ => by
      refine (evaluate_echoes hP hscope ht).bind (fun _ => (Keeps.lift _).bind fun b => ?_)
        fun _ hle _ _ hv => choice_echoes "?:" (tree_keeps hS hE σ _) (tree_keeps hS hE σ _) hv
          (fun _ hle' => evaluate_echoes (fun x y hxy => hle'.pairs x y (hle.pairs x y (hP x y hxy)))
            (hle'.scope (hle.scope hscope)) ht₁)
          fun _ hle' => evaluate_echoes (fun x y hxy => hle'.pairs x y (hle.pairs x y (hP x y hxy)))
            (hle'.scope (hle.scope hscope)) ht₂
      cases b with
      | true => exact tree_keeps hS hE σ _
      | false => exact tree_keeps hS hE σ _

theorem evaluateAll_echoes : ∀ {Γ : Correspondence} {ts us : List Expr} {W : Tandem},
    (∀ x y, P x y → W.pairs x y) → Scope.Coupled W.pairs Γ σ ρ → Tree.AllCoupled P V Γ ts us →
    Echoes host C U S AllCoupled E W (fun E => evaluateAll E σ ts) fun E => evaluateAll E ρ us
  | _, _, _, _, _, _, .nil => .pure .nil
  | _, _, _, _, hP, hscope, .cons ht hts =>
      (evaluate_echoes hP hscope ht).bind (fun _ => (trees_keeps hS hE σ _).bind fun _ => .pure _)
        fun _ hle _ _ hv =>
        (evaluateAll_echoes (fun x y hxy => hle.pairs x y (hP x y hxy)) (hle.scope hscope) hts).bind
          (fun _ => .pure _) fun _ hle' _ _ hvs => .pure (.cons (hle'.value hv) hvs)

end

end Trees

end DualForm
