import DualForm.Proofs.Laziness.Values

/-!
# One run beside the other

* `Mirrors G X F R W x y` — what the action `x` does from the left store of `W`, `y` does from the right
  store with enough nested steps: it succeeds with a result `R` relates to that of `x`, or fails with the same
  error, and the stores are those of a later sound world with `X`. Nothing is said where `x` exhausts its
  steps.
* `Engine.Mirrors G X F E` — so do all answers of `E`, and those of the engines of `F`, to requests that
  stand for each other.
* `Durable G X` — `X` stays true in later worlds in which no tree form has been published.

Principal result: `evaluate_mirrors` — the evaluation of a tree that holds given objects only.
-/

namespace DualForm

variable {α β γ δ : Type} {G : Ground} {X : World → Prop} {F : Nat → Engine} {E : Engine} {W : World}

/-- The result on the left has its counterpart on the right. -/
def Answered (G : Ground) (X : World → Prop) (F : Nat → Engine) (R : World → α → β → Prop) (W : World)
    (y : Engine → Act β) : EStateM.Result Stop Store α → Prop
  | .ok a t => ∃ W' b, W ≤ W' ∧ W'.Sound G ∧ X W' ∧ W'.left = t ∧
      Lands F y W.right (.ok b W'.right) ∧ R W' a b
  | .error (.failed e) t => ∃ W', W ≤ W' ∧ W'.Sound G ∧ X W' ∧ W'.left = t ∧
      Lands F y W.right (.error (.failed e) W'.right)
  | .error .exhausted _ => True

/-- What the action on the left does from its store, the other one does on the right. -/
def Mirrors (G : Ground) (X : World → Prop) (F : Nat → Engine) (R : World → α → β → Prop) (W : World)
    (x : Act α) (y : Engine → Act β) : Prop :=
  W.Sound G → X W → Answered G X F R W y (x W.left)

/-- The same on both sides, with `p`. -/
def Same (p : α → Prop) (_ : World) (a b : α) : Prop := a = b ∧ p a

namespace Mirrors

variable {R R' : World → α → β → Prop} {Q : World → γ → δ → Prop} {x : Act α} {y z : Engine → Act β}

theorem assuming (h : W.Sound G → Mirrors G X F R W x y) : Mirrors G X F R W x y := fun hW hX => h hW hW hX

theorem pure {a : α} {b : β} (h : R W a b) : Mirrors G X F R W (Pure.pure a) fun _ => Pure.pure b :=
  fun hW hX => ⟨W, b, le_refl W, hW, hX, rfl, .pure b _, h⟩

theorem fail (e : Error) : Mirrors G X F R W (Act.fail e) fun _ => Act.fail e :=
  fun hW hX => ⟨W, le_refl W, hW, hX, rfl, 0, fun _ _ => rfl⟩

theorem exhausted : Mirrors G X F R W (throw .exhausted) y := fun _ _ => trivial

theorem lift {p : Except Error α} {q : Except Error β} (h : ExceptRelated (R W) p q) :
    Mirrors G X F R W (Act.lift p) fun _ => Act.lift q := by
  cases h with
  | ok hab => exact pure hab
  | error e => exact fail e

theorem bind {f : α → Act γ} {g : Engine → β → Act δ} (h : Mirrors G X F R W x y)
    (hf : ∀ W', W ≤ W' → ∀ a b, R W' a b → Mirrors G X F Q W' (f a) fun E => g E b) :
    Mirrors G X F Q W (x >>= f) fun E => y E >>= g E := by
  intro hW hX
  have hx := h hW hX
  cases hleft : x W.left with
  | error e t =>
      rw [Act.bind_error hleft]
      rw [hleft] at hx
      cases e with
      | exhausted => trivial
      | failed e =>
          obtain ⟨V, hle, hV, hXV, hl, hr⟩ := hx
          exact ⟨V, hle, hV, hXV, hl, hr.bind_error⟩
  | ok a t =>
      rw [Act.bind_ok hleft]
      rw [hleft] at hx
      obtain ⟨V, b, hle, hV, hXV, rfl, hr, hab⟩ := hx
      have hfa := hf V hle a b hab hV hXV
      cases hnext : f a V.left with
      | error e u =>
          rw [hnext] at hfa
          cases e with
          | exhausted => trivial
          | failed e =>
              obtain ⟨U, hle', hU, hXU, hl, hr'⟩ := hfa
              exact ⟨U, hle.trans hle', hU, hXU, hl, hr.bind_ok hr'⟩
      | ok c u =>
          rw [hnext] at hfa
          obtain ⟨U, d, hle', hU, hXU, hl, hr', hcd⟩ := hfa
          exact ⟨U, d, hle.trans hle', hU, hXU, hl, hr.bind_ok hr', hcd⟩

theorem imp (h : Mirrors G X F R W x y) (hR : ∀ W' a b, W ≤ W' → R W' a b → R' W' a b) :
    Mirrors G X F R' W x y := by
  have hbind := h.bind (Q := R') fun W' hle a b hab => pure (hR W' a b hle hab)
  simpa using hbind

/-- An answer on the right mirrors what its step mirrors. -/
theorem step (h : Mirrors G X F R W x y) (hz : ∀ n, z (F (n + 1)) = y (F n)) :
    Mirrors G X F R W x z := by
  intro hW hX
  have hx := h hW hX
  cases hleft : x W.left with
  | error e t =>
      rw [hleft] at hx
      cases e with
      | exhausted => trivial
      | failed e =>
          obtain ⟨V, hle, hV, hXV, hl, hr⟩ := hx
          exact ⟨V, hle, hV, hXV, hl, hr.step hz⟩
  | ok a t =>
      rw [hleft] at hx
      obtain ⟨V, b, hle, hV, hXV, hl, hr, hab⟩ := hx
      exact ⟨V, b, hle, hV, hXV, hl, hr.step hz, hab⟩

/-- The same result on both sides. -/
theorem liftSame {p : α → Prop} {q : Except Error α} (h : ∀ a, q = .ok a → p a) :
    Mirrors G X F (Same p) W (Act.lift q) fun _ => Act.lift q := by
  cases q with
  | error e => exact fail e
  | ok a => exact pure ⟨rfl, h a rfl⟩

theorem bindSame {p : α → Prop} {x : Act α} {y : Engine → Act α} {f : α → Act γ} {g : Engine → α → Act δ}
    (h : Mirrors G X F (Same p) W x y)
    (hf : ∀ W', W ≤ W' → ∀ a, p a → Mirrors G X F Q W' (f a) fun E => g E a) :
    Mirrors G X F Q W (x >>= f) fun E => y E >>= g E := by
  refine h.bind fun W' hle a b hab => ?_
  obtain ⟨rfl, ha⟩ := hab
  exact hf W' hle a ha

/-- Elements of a list one after the other. -/
theorem mapM {f : α → Act γ} {g : Engine → α → Act γ} {p : γ → Prop} : ∀ {l : List α} {W : World},
    (∀ W', W ≤ W' → ∀ a ∈ l, Mirrors G X F (Same p) W' (f a) fun E => g E a) →
    Mirrors G X F (Same fun cs => ∀ c ∈ cs, p c) W (l.mapM f) fun E => l.mapM (g E)
  | [], W, _ => by
      simp only [List.mapM_nil]
      exact pure ⟨rfl, fun _ h => by cases h⟩
  | a :: l, W, h => by
      simp only [List.mapM_cons]
      refine (h W (le_refl W) a (List.mem_cons_self ..)).bindSame fun V hle c hc => ?_
      refine (mapM fun V' hle' a ha => h V' (hle.trans hle') a (List.mem_cons_of_mem _ ha)).bindSame
        fun U _ cs hcs => ?_
      exact pure ⟨rfl, List.forall_mem_cons.2 ⟨hc, hcs⟩⟩

end Mirrors

/-! ## Requests that stand for each other -/

/-- The same tree, which holds given objects only. -/
abbrev SameTree (G : Ground) : World → Expr → Expr → Prop := Same (Tree.Given G)

/-- The same lambda, which holds given objects only. -/
abbrev SameLambda (G : Ground) : World → Lam → Lam → Prop := Same fun l => l.body.Given G

/-- All answers of the engine are mirrored by the family. -/
structure Engine.Mirrors (G : Ground) (X : World → Prop) (F : Nat → Engine) (E : Engine) : Prop where
  call : ∀ {W f g vs ws}, W.function f g → W.values vs ws →
    DualForm.Mirrors G X F World.value W (E.call f vs) fun E => E.call g ws
  tree : ∀ {W d e}, W.duals d e →
    DualForm.Mirrors G X F (SameLambda G) W (E.tree d) fun E => E.tree e
  function : ∀ {W d e}, W.duals d e →
    DualForm.Mirrors G X F World.function W (E.function d) fun E => E.function e
  rewrite : ∀ {W t}, t.Given G → ∀ pass,
    DualForm.Mirrors G X F (SameTree G) W (E.rewrite pass t) fun E => E.rewrite pass t

/-- True in a later world, if no tree form has been published meanwhile. -/
def Durable (G : Ground) (X : World → Prop) : Prop :=
  ∀ V W : World, V.Sound G → W.Sound G → V ≤ W → Quiet V W → X V → X W

theorem newFunc_mirrors (hX : Durable G X) (arity : Nat) {c c' : Code}
    (hc : CodeRelated G W.function W.duals c c') :
    Mirrors G X F World.function W (Act.newFunc arity c) fun _ => Act.newFunc arity c' := by
  intro hW hXW
  obtain ⟨hW', hle, hquiet⟩ := hW.addFunc arity hc
  exact ⟨_, _, hle, hW', hX _ _ hW hW' hle hquiet hXW, rfl, ⟨0, fun _ _ => rfl⟩, .inl (.inr ⟨rfl, rfl⟩)⟩

theorem create_mirrors (hX : Durable G X) (kind : DualKind) (source result : Ty) {o o' : Origin}
    (ho : OriginRelated G W.funcs W.duals o o') :
    Mirrors G X F World.duals W (Dual.create kind source result o)
      fun _ => Dual.create kind source result o' := by
  intro hW hXW
  obtain ⟨hW', hle, hquiet⟩ := hW.addDual kind source result ho
  exact ⟨_, _, hle, hW', hX _ _ hW hW' hle hquiet hXW, rfl, ⟨0, fun _ _ => rfl⟩, .inr ⟨rfl, rfl⟩⟩

/-! ## Making duals -/

theorem checkSameSource_related (hW : W.Sound G) {d e d' e' : Dual} (hd : W.duals d d')
    (he : W.duals e e') :
    ExceptRelated Eq (Dual.checkSameSource d e) (Dual.checkSameSource d' e') := by
  unfold Dual.checkSameSource
  rw [← (hW.dual hd).source, ← (hW.dual he).source, ← hW.signature_eq hd, ← hW.signature_eq he]
  split
  · exact .ok rfl
  · exact .error _

/-- Two specifications under an operator. -/
theorem combination_mirrors (hX : Durable G X) {make : Dual → Dual → Origin}
    (hmake : ∀ {W : World} {d e d' e'}, W.duals d d' → W.duals e e' →
      OriginRelated G W.funcs W.duals (make d e) (make d' e'))
    {d e d' e' : Dual} (hd : W.duals d d') (he : W.duals e e') :
    Mirrors G X F World.duals W
      (do Act.lift (Dual.checkSameSource d e); Dual.create .specification d.source .bool (make d e))
      fun _ => (do
        Act.lift (Dual.checkSameSource d' e')
        Dual.create .specification d'.source .bool (make d' e')) := by
  refine .assuming fun hW => ?_
  rw [← (hW.dual hd).source]
  refine (Mirrors.lift (R := fun _ => Eq) (checkSameSource_related hW hd he)).bind fun V hle _ _ _ => ?_
  exact create_mirrors hX _ _ _ (hmake (hle.duals hd) (hle.duals he))

theorem negation_mirrors (hX : Durable G X) {d d' : Dual} (hd : W.duals d d') :
    Mirrors G X F World.duals W (Dual.negation d) fun _ => Dual.negation d' := by
  refine .assuming fun hW => ?_
  unfold Dual.negation
  rw [← (hW.dual hd).source]
  exact create_mirrors hX _ _ _ (.negation hd)

/-! ## Evaluation -/

section Evaluation

variable {v w : Value} {vs ws : List Value} {target target' : Option Value}

theorem dual_mirrors (kind : DualKind) (hv : W.value v w) :
    Mirrors G X F World.duals W (Act.lift (Dual.expect kind v)) fun _ => Act.lift (Dual.expect kind w) :=
  .assuming fun hW => .lift (hW.expect_related kind hv)

/-- The function form of the dual a value holds. -/
theorem functionOf_mirrors (hE : E.Mirrors G X F) (kind : DualKind) (hv : W.value v w) :
    Mirrors G X F World.value W (do return .func (← E.function (← Act.lift (Dual.expect kind v))))
      fun E => (do return .func (← E.function (← Act.lift (Dual.expect kind w)))) :=
  (dual_mirrors kind hv).bind fun _ _ _ _ hd => (hE.function hd).bind fun _ _ _ _ hf => .pure (.func hf)

theorem memberAccess_mirrors {R : World → α → β → Prop} (name : String) (hv : W.value v w) :
    Mirrors G X F R W (Act.fail (.memberAccess name v.text)) fun _ => Act.fail (.memberAccess name w.text) := by
  refine .assuming fun hW => ?_
  rw [hW.text_eq hv]
  exact .fail _

theorem field_mirrors (name : String) {declaring : DeclaringType} {fs gs : List (String × Value)}
    (hfs : RelatedFields W.function W.duals fs gs) :
    Mirrors G X F World.value W
      (match Datum.fieldOf? fs name with
        | some v => pure v
        | none => Act.fail (.memberAccess name declaring.name))
      fun _ => match Datum.fieldOf? gs name with
        | some v => pure v
        | none => Act.fail (.memberAccess name declaring.name) := by
  rcases hfs.fieldOf? name with ⟨hf, hg⟩ | ⟨v, w, hf, hg, hvw⟩
  · rw [hf, hg]
    exact .fail _
  · rw [hf, hg]
    exact .pure hvw

theorem read_mirrors (hE : E.Mirrors G X F) {m : Member Getter} (hm : m.getter.Given G)
    (ht : Option.Rel W.value target target') :
    Mirrors G X F World.value W (m.read E target) fun E => m.read E target' := by
  refine .assuming fun hW => ?_
  obtain ⟨⟨declaring, name, ty, kind, isStatic⟩, getter⟩ := m
  cases ht with
  | none =>
      cases isStatic with
      | false => exact .fail _
      | true =>
          cases getter with
          | fixed v => exact .pure (hW.given_value hm)
          | computed f => exact hE.call (.inl (hW.given_func hm)) .nil
          | field | property | evaluator => exact .fail _
  | @some v w hv =>
      cases isStatic with
      | true => exact memberAccess_mirrors name hv
      | false =>
          cases getter with
          | property f => exact hE.call (.inl (hW.given_func hm)) (.cons hv .nil)
          | fixed v => exact .pure (hW.given_value hm)
          | computed f => exact hE.call (.inl (hW.given_func hm)) .nil
          | evaluator kind => exact functionOf_mirrors hE kind hv
          | field =>
              cases hv with
              | record id declaring hfs => exact field_mirrors name hfs
              | scalar hs => cases v <;> first | exact .fail _ | exact absurd hs Bool.false_ne_true
              | list hvs => exact memberAccess_mirrors name (.list hvs)
              | func hf => exact memberAccess_mirrors name (.func hf)
              | dual hd => exact memberAccess_mirrors name (.dual hd)

theorem onTarget_mirrors {run : Value → Act Value} {run' : Engine → Value → Act Value}
    (m : Method Invoker) (ht : Option.Rel W.value target target')
    (h : ∀ v w, W.value v w → Mirrors G X F World.value W (run v) fun E => run' E w) :
    Mirrors G X F World.value W (m.onTarget target run) fun E => m.onTarget target' (run' E) := by
  cases ht with
  | none => exact .fail _
  | some hv => exact h _ _ hv

theorem evaluate_dual_mirrors (hE : E.Mirrors G X F) {d e : Dual} (hd : W.duals d e) (hv : W.value v w) :
    Mirrors G X F World.value W (d.evaluate E v) fun E => e.evaluate E w :=
  (hE.function hd).bind fun _ hle _ _ hf => hE.call hf (.cons (hle.value hv) .nil)

/-- A dual made of two specifications. -/
theorem operands_mirrors {x y x' y' : Value} (hx : W.value x x') (hy : W.value y y')
    {make : Dual → Dual → Act Dual} (hmake : ∀ {W : World} {d e d' e'}, W.duals d d' → W.duals e e' →
      Mirrors G X F World.duals W (make d e) fun _ => make d' e') :
    Mirrors G X F World.value W
      (do
        let lhs ← Act.lift (Dual.expect .specification x)
        let rhs ← Act.lift (Dual.expect .specification y)
        return .dual (← make lhs rhs))
      fun _ => (do
        let lhs ← Act.lift (Dual.expect .specification x')
        let rhs ← Act.lift (Dual.expect .specification y')
        return .dual (← make lhs rhs)) :=
  (dual_mirrors _ hx).bind fun _ hle _ _ hd => (dual_mirrors _ (hle.value hy)).bind
    fun _ hle' _ _ he => (hmake (hle'.duals hd) he).bind fun _ _ _ _ hc => .pure (.dual hc)

theorem invoke_mirrors (hX : Durable G X) (hE : E.Mirrors G X F) {m : Method Invoker}
    (hm : m.invoker.Given G) (ht : Option.Rel W.value target target') (hvs : W.values vs ws) :
    Mirrors G X F World.value W (m.invoke E target vs) fun E => m.invoke E target' ws := by
  refine .assuming fun hW => ?_
  by_cases htakes : m.Takes vs.length
  · obtain ⟨signature, invoker⟩ := m
    unfold Method.invoke
    rw [← hvs.length]
    simp only [if_neg (not_not.2 htakes.1)]
    cases invoker with
    | function f => exact hE.call (.inl (hW.given_func hm)) hvs
    | method f => exact onTarget_mirrors _ ht fun v w hv => hE.call (.inl (hW.given_func hm)) (.cons hv hvs)
    | bind =>
        refine onTarget_mirrors _ ht fun v w hv => ?_
        obtain ⟨hv', hw'⟩ := World.no_factory hv
        rw [hv', hw', hW.ty_eq hv]
        exact .fail _
    | evaluate kind =>
        obtain ⟨x, y, rfl, rfl, hx⟩ := hvs.single (htakes.2 1 rfl)
        exact onTarget_mirrors _ ht fun v w hv => (dual_mirrors kind hv).bind
          fun _ hle _ _ hd => evaluate_dual_mirrors hE hd (hle.value hx)
    | toFunction kind =>
        obtain ⟨x, y, rfl, rfl, hx⟩ := hvs.single (htakes.2 1 rfl)
        exact functionOf_mirrors hE kind hx
    | negation =>
        obtain ⟨x, y, rfl, rfl, hx⟩ := hvs.single (htakes.2 1 rfl)
        exact (dual_mirrors _ hx).bind fun _ _ _ _ hd =>
          (negation_mirrors hX hd).bind fun _ _ _ _ hd => .pure (.dual hd)
    | conjunction =>
        obtain ⟨x, x', y, y', rfl, rfl, hx, hx'⟩ := hvs.pair (htakes.2 2 rfl)
        exact operands_mirrors hx hx' (combination_mirrors hX .conjunction)
    | disjunction =>
        obtain ⟨x, x', y, y', rfl, rfl, hx, hx'⟩ := hvs.pair (htakes.2 2 rfl)
        exact operands_mirrors hx hx' (combination_mirrors hX .disjunction)
  · have htakes' : ¬ m.Takes ws.length := hvs.length ▸ htakes
    simp only [invoke_refused htakes, invoke_refused htakes', hvs.length]
    exact .fail _

variable {σ ρ : Scope}

theorem evaluateAll_mirrors : ∀ {ts : List Expr} {W : World}, W.scope σ ρ →
    (∀ t ∈ ts, ∀ V : World, V.scope σ ρ →
      Mirrors G X F World.value V (evaluate E σ t) fun E => evaluate E ρ t) →
    Mirrors G X F World.values W (evaluateAll E σ ts) fun E => evaluateAll E ρ ts
  | [], W, _, _ => by
      unfold evaluateAll
      exact .pure .nil
  | t :: ts, W, hσ, h => by
      unfold evaluateAll
      refine (h t (List.mem_cons_self ..) W hσ).bind fun V hle v w hv => ?_
      refine (evaluateAll_mirrors (hle.scope hσ) fun u hu => h u (List.mem_cons_of_mem _ hu)).bind
        fun U hle' vs ws hvs => ?_
      exact .pure (.cons (hle'.value hv) hvs)

theorem bool_mirrors (context : String) (hv : W.value v w) :
    Mirrors G X F (fun _ => Eq) W (Act.lift (Value.expectBool context v))
      fun _ => Act.lift (Value.expectBool context w) := by
  refine .assuming fun hW => ?_
  rw [hW.expectBool_eq context hv]
  cases Value.expectBool context w with
  | ok b => exact .pure rfl
  | error e => exact .fail e

/-- A boolean, made of a value on either side. -/
theorem boolean_mirrors (context : String) (hv : W.value v w) :
    Mirrors G X F World.value W (do return .bool (← Act.lift (Value.expectBool context v)))
      fun _ => (do return .bool (← Act.lift (Value.expectBool context w))) :=
  (bool_mirrors context hv).bind fun _ _ _ _ hbc => .pure (hbc ▸ .scalar rfl)

/-- An operand decides which of two actions is run. -/
theorem choice_mirrors (context : String) {x y : Act Value} {x' y' : Engine → Act Value} (hv : W.value v w)
    (hx : ∀ V, W ≤ V → Mirrors G X F World.value V x x')
    (hy : ∀ V, W ≤ V → Mirrors G X F World.value V y y') :
    Mirrors G X F World.value W (do if ← Act.lift (Value.expectBool context v) then x else y)
      fun E => (do if ← Act.lift (Value.expectBool context w) then x' E else y' E) := by
  refine (bool_mirrors context hv).bind fun V hle b c hbc => ?_
  subst hbc
  cases b with
  | true => exact hx V hle
  | false => exact hy V hle

/-- An operator without a method applies itself, or evaluates its second operand only if need be. -/
theorem operator_mirrors (op : BinaryOp) {t u : Expr}
    (ht : Mirrors G X F World.value W (evaluate E σ t) fun E => evaluate E ρ t)
    (hu : ∀ V, W ≤ V → Mirrors G X F World.value V (evaluate E σ u) fun E => evaluate E ρ u) :
    Mirrors G X F World.value W (evaluate E σ (.binary op t u none))
      fun E => evaluate E ρ (.binary op t u none) := by
  by_cases hand : op = .andAlso
  · subst hand
    simp only [evaluate_andAlso]
    refine ht.bind fun V hle v w hv => choice_mirrors "&&" hv (fun U hle' => ?_) fun _ _ => .pure (.scalar rfl)
    exact (hu U (hle.trans hle')).bind fun _ _ _ _ hv' => boolean_mirrors "&&" hv'
  by_cases hor : op = .orElse
  · subst hor
    simp only [evaluate_orElse]
    refine ht.bind fun V hle v w hv => choice_mirrors "||" hv (fun _ _ => .pure (.scalar rfl)) fun U hle' => ?_
    exact (hu U (hle.trans hle')).bind fun _ _ _ _ hv' => boolean_mirrors "||" hv'
  · simp only [evaluate_strict hand hor]
    refine ht.bind fun V hle v w hv => (hu V hle).bind fun U hle' v' w' hv' => ?_
    exact .assuming fun hU => .lift (hU.applyBinary_related op (hle'.value hv) hv')

/-- A function is called, anything else refused. -/
theorem invoked_mirrors (hE : E.Mirrors G X F) : W.value v w → W.values vs ws →
    Mirrors G X F World.value W
      (match v with
        | .func f => E.call f vs
        | v => Act.fail (.typeMismatch "function" (Value.ty v).text))
      fun E => match w with
        | .func f => E.call f ws
        | v => Act.fail (.typeMismatch "function" (Value.ty v).text) := by
  refine fun hv hvs => .assuming fun hW => ?_
  have hty := hW.ty_eq hv
  cases hv with
  | func hf => exact hE.call hf hvs
  | scalar hs => cases v <;> first | exact .fail _ | exact absurd hs Bool.false_ne_true
  | list | record | dual =>
      dsimp only
      rw [hty]
      exact .fail _

/-- **The evaluation of a tree that holds given objects only,** in scopes that stand for each other. -/
theorem evaluate_mirrors (hX : Durable G X) (hE : E.Mirrors G X F) {t : Expr} (ht : t.Given G) :
    ∀ {W : World}, W.scope σ ρ →
      Mirrors G X F World.value W (evaluate E σ t) fun E => evaluate E ρ t := by
  induction t using Tree.nodewise with
  | literal v ty =>
      intro W hσ
      unfold evaluate
      exact .assuming fun hW => .pure (hW.given_value ht.here)
  | param p =>
      intro W hσ
      unfold evaluate
      rcases hσ.lookup? p with ⟨hl, hr⟩ | ⟨v, w, hl, hr, hvw⟩
      · rw [hl, hr]
        exact .fail _
      · rw [hl, hr]
        exact .pure hvw
  | staticMember m =>
      intro W hσ
      unfold evaluate
      exact read_mirrors hE ht.here .none
  | member target m ih =>
      intro W hσ
      unfold evaluate
      have htarget := ht.child (List.mem_singleton.2 rfl)
      exact (ih htarget hσ).bind fun _ _ _ _ hv => read_mirrors hE ht.here (.some hv)
  | staticCall m args ih =>
      intro W hσ
      unfold evaluate
      refine (evaluateAll_mirrors hσ fun u hu V hσ => ih u hu (ht.child hu) hσ).bind
        fun _ _ _ _ hvs => ?_
      exact invoke_mirrors hX hE ht.here .none hvs
  | call target m args iht ih =>
      intro W hσ
      unfold evaluate
      refine (iht (ht.child (List.mem_cons_self ..)) hσ).bind fun V hle v w hv => ?_
      refine (evaluateAll_mirrors (hle.scope hσ) fun u hu V hσ =>
        ih u hu (ht.child (List.mem_cons_of_mem _ hu)) hσ).bind fun U hle' vs ws hvs => ?_
      exact invoke_mirrors hX hE ht.here (.some (hle'.value hv)) hvs
  | binary op lhs rhs via ihl ihr =>
      intro W hσ
      have hlhs : lhs.Given G := ht.child (List.mem_cons_self ..)
      have hrhs : rhs.Given G := ht.child (List.mem_cons_of_mem _ (List.mem_singleton.2 rfl))
      cases via with
      | some m =>
          simp only [evaluate_via]
          refine (ihl hlhs hσ).bind fun V hle v w hv => ?_
          refine (ihr hrhs (hle.scope hσ)).bind fun U hle' v' w' hv' => ?_
          exact invoke_mirrors hX hE (ht.here m rfl) .none (.cons (hle'.value hv) (.cons hv' .nil))
      | none => exact operator_mirrors op (ihl hlhs hσ) fun V hle => ihr hrhs (hle.scope hσ)
  | unary op operand via ty ih =>
      intro W hσ
      unfold evaluate
      refine (ih (ht.child (List.mem_singleton.2 rfl)) hσ).bind fun V hle v w hv => ?_
      cases via with
      | some m => exact invoke_mirrors hX hE (ht.here m rfl) .none (.cons hv .nil)
      | none => exact .assuming fun hV => .lift (hV.applyUnary_related op hv ty)
  | lambda params body ih =>
      intro W hσ
      unfold evaluate
      have hbody : body.Given G := ht.child (List.mem_singleton.2 rfl)
      exact (newFunc_mirrors hX params.length (.closure hbody hσ)).bind fun _ _ _ _ hf => .pure (.func hf)
  | invoke callee args ihc ih =>
      intro W hσ
      simp only [evaluate_invoke]
      refine (ihc (ht.child (List.mem_cons_self ..)) hσ).bind fun V hle v w hv => ?_
      refine (evaluateAll_mirrors (hle.scope hσ) fun u hu V hσ =>
        ih u hu (ht.child (List.mem_cons_of_mem _ hu)) hσ).bind fun U hle' vs ws hvs => ?_
      exact invoked_mirrors hE (hle'.value hv) hvs
  | conditional test ifTrue ifFalse iht ihp ihn =>
      intro W hσ
      have hchild : ∀ {c : Expr}, c ∈ [test, ifTrue, ifFalse] → c.Given G := fun hc => ht.child hc
      unfold evaluate
      refine (iht (hchild (by simp)) hσ).bind fun V hle v w hv => choice_mirrors "?:" hv ?_ ?_
      · exact fun U hle' => ihp (hchild (by simp)) ((hle.trans hle').scope hσ)
      · exact fun U hle' => ihn (hchild (by simp)) ((hle.trans hle').scope hσ)

end Evaluation

end DualForm
