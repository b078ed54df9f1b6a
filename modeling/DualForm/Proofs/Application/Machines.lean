import DualForm.Proofs.Application.Evaluation

/-!
# Two runs of the machine

* `Captured.Coupled` — the same argument, as builders see it.
* `Host.Impartial host C` — routines and builders within the contract do the same in two runs: they look at
  functions and duals through the engine only, and keep no state of their own.

Principal results: `code_echoes` and `initialFunction_echoes` — calls of functions that stand for each other,
and the function forms computed for duals that do; `forceFunction_echoes` — both runs publish a function form.
-/

namespace DualForm

open Act (Keeps)
open Value (Coupled AllCoupled)

variable {host : Host} {C : Contract} {U : View → Prop} {S : Regime} {E : Engine} {W : Tandem}
  {vs ws : List Value} {v w : Value} {f g : Func} {d e : Dual}

/-- The same argument, as builders see it. -/
inductive Captured.Coupled (P : Pairing) : Captured → Captured → Prop
  | value (formal : FormalParam) {v w : Value} : Value.Coupled P v w →
      Captured.Coupled P ⟨formal, .value v⟩ ⟨formal, .value w⟩
  | accessor (formal : FormalParam) {f g : Func} : P (.func f) (.func g) →
      Captured.Coupled P ⟨formal, .accessor f⟩ ⟨formal, .accessor g⟩

theorem Captured.Coupled.mono {P Q : Pairing} {c c' : Captured} (h : ∀ x y, P x y → Q x y)
    (hc : Captured.Coupled P c c') : Captured.Coupled Q c c' := by
  cases hc with
  | value formal hv => exact .value formal (hv.mono h)
  | accessor formal hf => exact .accessor formal (h _ _ hf)

/-- On coupled arguments, routines and builders within the contract do the same. -/
structure Host.Impartial (host : Host) (C : Contract) : Prop where
  keeps : ∀ I, Lasting I → Formal I → host.Keeps I
  run : ∀ {U : View → Prop} {S : Regime} {E : Engine} {W : Tandem} {name : String}
    {held held' args args' : List Value} (self self' : Nat), S.Durable C U → E.Echoes host C U S →
    C.routines name → AllCoupled W.pairs held held' → AllCoupled W.pairs args args' →
    Echoes host C U S Value.Coupled E W (fun E => host.run E self name held args)
      fun E => host.run E self' name held' args'
  buildTree : ∀ {U : View → Prop} {S : Regime} {E : Engine} {W : Tandem} {build : BuilderId}
    {cs cs' : List Captured}, S.Durable C U → E.Echoes host C U S → C.trees build →
    List.Forall₂ (Captured.Coupled W.pairs) cs cs' →
    Echoes host C U S (Lambda.Coupled C Untouched) E W (fun E => host.buildTree E build cs)
      fun E => host.buildTree E build cs'
  buildFunction : ∀ {U : View → Prop} {S : Regime} {E : Engine} {W : Tandem} {build : BuilderId}
    {cs cs' : List Captured}, S.Durable C U → E.Echoes host C U S → C.functions build →
    List.Forall₂ (Captured.Coupled W.pairs) cs cs' →
    Echoes host C U S FuncPaired E W (fun E => host.buildFunction E build cs)
      fun E => host.buildFunction E build cs'

theorem Host.Impartial.concur (hhost : host.Impartial C) (hS : S.Durable C U) (hE : E.Echoes host C U S) :
    host.Concur S.beyond E E := (hhost.keeps _ hS.lasting hS.formal).concur hE.keeps

/-! ## Arguments of factories -/

theorem resolved_echoes (hE : E.Echoes host C U S) : ∀ {bs cs : Bindings} {W : Tandem},
    Bindings.Coupled W.pairs bs cs → Echoes host C U S (fun P => List.Forall₂ (Captured.Coupled P)) E W
      (fun E => bs.resolved E) fun E => cs.resolved E
  | _, _, _, .nil => .pure .nil
  | (formal, x) :: bs, (_, y) :: cs, W, .cons ⟨rfl, hxy⟩ hrest => by
      have hfirst : Echoes host C U S Captured.Coupled E W (fun E => x.resolved E formal)
          fun E => y.resolved E formal := by
        cases hxy with
        | value hv => exact .pure (.value formal hv)
        | deferred hf =>
            exact (hE.call hf .nil).bind (fun _ => .pure _) fun _ _ _ _ hv => .pure (.value formal hv)
      unfold Bindings.resolved
      simp only [List.mapM_cons]
      refine hfirst.bind (fun _ => (resolved_concur hE.keeps.concur bs).keeps.bind fun _ => .pure _)
        fun V hle c c' hc => ?_
      have hrest : Bindings.Coupled V.pairs bs cs :=
        Bindings.Coupled.seen (a := .left) (b := .right) hle.pairs hrest
      exact (resolved_echoes hE hrest).bind (fun _ => .pure _) fun V' hle' _ _ hcs =>
        .pure (.cons (hc.mono hle'.pairs) hcs)

theorem compile_echoes (hS : S.Durable C U) {l l' : Lam} (hl : Lambda.Coupled C U W.pairs l l') :
    Echoes host C U S FuncPaired E W (fun _ => compile l) fun _ => compile l' := by
  unfold compile Lambda.arity
  rw [← hl.1]
  exact newFunc_echoes hS hl.2

theorem buildFunction_echoes (hhost : host.Impartial C) (hS : S.Durable C U) (hE : E.Echoes host C U S)
    {b : Builders} {cs cs' : List Captured} (hb : b.Within C)
    (hcs : List.Forall₂ (Captured.Coupled W.pairs) cs cs') :
    Echoes host C U S FuncPaired E W (fun E => b.buildFunction host E cs)
      fun E => b.buildFunction host E cs' := by
  cases b with
  | tree build =>
      have hviews : ∀ V, Untouched V → U V := fun V hV => hV ▸ hS.plain
      exact (hhost.buildTree hS hE hb hcs).bind (fun _ => (newFunc_concur hS.lasting.identity ..).keeps)
        fun V _ l l' hl => compile_echoes hS (hl.mono (fun _ _ => id) hviews)
  | both func build => exact hhost.buildFunction hS hE hb hcs
  | function func decompiler => exact hhost.buildFunction hS hE hb hcs

theorem built_echoes (hhost : host.Impartial C) (hS : S.Durable C U) (hE : E.Echoes host C U S) {b : Builders}
    {bs cs : Bindings} (hb : b.Within C) (hbs : Bindings.Coupled W.pairs bs cs) :
    Echoes host C U S FuncPaired E W (fun E => bs.built host E b) fun E => cs.built host E b :=
  (resolved_echoes hE hbs).bind
    (fun _ => (buildFunction_concur hS.lasting.identity (hhost.concur hS hE) b _).keeps)
    fun _ _ _ _ hcs => buildFunction_echoes hhost hS hE hb hcs

/-! ## Calls -/

/-- Code of functions of one argument. -/
def Code.takesOne : Code → Bool
  | .closure _ _ | .host _ _ => false
  | .chain _ _ | .conjunction _ _ | .disjunction _ _ | .negation _ | .rebuilt _ _ => true

theorem Code.run_unfit {c : Code} (hc : c.takesOne = true) {self : Nat} (h : vs.length ≠ 1) :
    c.run host E self vs = Act.fail (.arityMismatch 1 vs.length) := by
  rcases vs with _ | ⟨v, _ | ⟨w, vs⟩⟩
  · cases c <;> first | rfl | cases hc
  · exact absurd rfl h
  · cases c <;> first | rfl | cases hc

theorem holds_echoes (hE : E.Echoes host C U S) (context : String) (hf : W.pairs (.func f) (.func g))
    (hv : Coupled W.pairs v w) :
    Echoes host C U S (fun _ => Eq) E W (fun E => f.holds E context v) fun E => g.holds E context w :=
  (hE.call hf (.cons hv .nil)).bind (fun _ => .lift _) fun _ _ _ _ hx => bool_echoes context hx

/-- A predicate decides which of two actions is run. -/
theorem decision_echoes {x y x' y' : Engine → Act Value} (context : String)
    (hE : E.Echoes host C U S) (hx : (x E).Keeps S.beyond) (hy : (y E).Keeps S.beyond)
    (hf : W.pairs (.func f) (.func g)) (hv : Coupled W.pairs v w)
    (hxx : ∀ V, W.Later V → Echoes host C U S Coupled E V x x')
    (hyy : ∀ V, W.Later V → Echoes host C U S Coupled E V y y') :
    Echoes host C U S Coupled E W (fun E => (do if ← f.holds E context v then x E else y E))
      fun E => (do if ← g.holds E context w then x' E else y' E) := by
  refine (holds_echoes hE context hf hv).bind (fun b => ?_) fun V hle b c hbc => ?_
  · cases b with
    | true => exact hx
    | false => exact hy
  · subst hbc
    cases b with
    | true => exact hxx V hle
    | false => exact hyy V hle

/-- The answer of a predicate, as a value. -/
theorem answer_echoes (hE : E.Echoes host C U S) (context : String) (hf : W.pairs (.func f) (.func g))
    (hv : Coupled W.pairs v w) :
    Echoes host C U S Coupled E W (fun E => (do return .bool (← f.holds E context v)))
      fun E => (do return .bool (← g.holds E context w)) :=
  (holds_echoes hE context hf hv).bind (fun _ => .pure _) fun _ _ _ _ hbc => .pure (hbc ▸ .scalar rfl)

theorem holds_keeps (hE : E.Echoes host C U S) (f : Func) (context : String) (v : Value) :
    (f.holds E context v).Keeps S.beyond := (holds_concur hE.keeps.concur f context v).keeps

theorem answer_keeps (hE : E.Echoes host C U S) (f : Func) (context : String) (v : Value) :
    Keeps S.beyond (do return .bool (← f.holds E context v) : Act Value) :=
  (holds_keeps hE f context v).bind fun _ => .pure _

/-- Code of functions of one argument refuses any other number. -/
theorem single_echoes {c c' : Code} (hc : c.takesOne = true) (hc' : c'.takesOne = true) (self self' : Nat)
    (hvs : AllCoupled W.pairs vs ws)
    (hone : ∀ v w, Coupled W.pairs v w →
      Echoes host C U S Coupled E W (fun E => c.run host E self [v]) fun E => c'.run host E self' [w]) :
    Echoes host C U S Coupled E W (fun E => c.run host E self vs) fun E => c'.run host E self' ws := by
  have hother : vs.length ≠ 1 →
      Echoes host C U S Coupled E W (fun E => c.run host E self vs) fun E => c'.run host E self' ws := fun h => by
    simp only [Code.run_unfit hc h, Code.run_unfit hc' (hvs.length ▸ h), hvs.length]
    exact .fail _
  cases hvs with
  | nil => exact hother nofun
  | cons hv hvs =>
      cases hvs with
      | nil => exact hone _ _ hv
      | cons => exact hother (by simp)

/-- **Functions that stand for each other do the same.** -/
theorem code_echoes (hhost : host.Impartial C) (hS : S.Durable C U) (hE : E.Echoes host C U S)
    (hread : Readable host C U S E) {n : Nat} {c c' : Code} (hc : Code.Coupled C U W.pairs n c c')
    (hn : vs.length = n) (hvs : AllCoupled W.pairs vs ws) (self self' : Nat) :
    Echoes host C U S Coupled E W (fun E => c.run host E self vs) fun E => c'.run host E self' ws := by
  cases hc with
  | closure hV hl hl' hps hqs hσ hρ hscope hbody =>
      have hσ := View.bind _ vs hσ hps
      have hρ := View.bind _ ws hρ hqs
      have hscope := hscope.bindAll (hl.trans hl'.symm) (hl.trans hn.symm) hvs
      exact evaluate_echoes hS hE hV hσ hρ (fun htu => hread hV htu hσ hρ) (fun _ _ => id) hscope hbody
  | host hname hheld => exact hhost.run self self' hS hE hname hheld hvs
  | chain hf hg =>
      refine single_echoes rfl rfl self self' hvs fun v w hv => ?_
      exact (hE.call hf (.cons hv .nil)).bind (fun _ => hE.keeps.call _ _) fun V hle x y hxy =>
        hE.call (hle.pairs _ _ hg) (.cons hxy .nil)
  | conjunction hf hg =>
      refine single_echoes rfl rfl self self' hvs fun v w hv => ?_
      exact decision_echoes _ hE (answer_keeps hE _ _ _) (.pure _) hf hv
        (fun V hle => answer_echoes hE _ (hle.pairs _ _ hg) (hle.value hv)) fun _ _ => .pure (.scalar rfl)
  | disjunction hf hg =>
      refine single_echoes rfl rfl self self' hvs fun v w hv => ?_
      exact decision_echoes _ hE (.pure _) (answer_keeps hE _ _ _) hf hv (fun _ _ => .pure (.scalar rfl))
        fun V hle => answer_echoes hE _ (hle.pairs _ _ hg) (hle.value hv)
  | negation hf =>
      refine single_echoes rfl rfl self self' hvs fun v w hv => ?_
      exact (holds_echoes hE _ hf hv).bind (fun _ => .pure _) fun _ _ _ _ hbc => .pure (hbc ▸ .scalar rfl)
  | rebuilt hwithin hbs =>
      refine single_echoes rfl rfl self self' hvs fun v w hv => ?_
      exact (built_echoes hhost hS hE hwithin hbs).bind (fun _ => hE.keeps.call _ _) fun V hle x y hxy =>
        hE.call hxy (.cons (hle.value hv) .nil)

theorem apply_echoes (hhost : host.Impartial C) (hS : S.Durable C U) (hE : E.Echoes host C U S)
    (hread : Readable host C U S E) (hf : W.pairs (.func f) (.func g)) (hvs : AllCoupled W.pairs vs ws) :
    Echoes host C U S Coupled E W (fun E => f.apply host E vs) fun E => g.apply host E ws := by
  refine .assuming fun hW => ?_
  obtain ⟨harity, hcode⟩ := hW.func hf
  unfold Func.apply
  rw [← harity, ← hvs.length]
  by_cases hlength : vs.length ≠ f.arity
  · simp only [if_pos hlength]
    exact .fail _
  · simp only [if_neg hlength]
    exact code_echoes hhost hS hE hread hcode (not_not.1 hlength) hvs f.id g.id

/-! ## Requests for function forms -/

/-- The function of a factory whose parameters are all bound. -/
theorem bound_echoes (hhost : host.Impartial C) (hS : S.Durable C U) (hE : E.Echoes host C U S) {b : Builders}
    {bs cs : Bindings} (hb : b.Within C) (hbs : Bindings.Coupled W.pairs bs cs) :
    Echoes host C U S FuncPaired E W (fun E => bs.function host E b) fun E => cs.function host E b := by
  have hdeferred : bs.isDeferred = cs.isDeferred := by
    unfold Bindings.isDeferred
    unfold Bindings.Coupled at hbs
    induction hbs with
    | nil => rfl
    | @cons x y _ _ hxy _ ih =>
        rw [List.any_cons, List.any_cons, ih, hxy.2.isDeferred_eq]
  unfold Bindings.function
  rw [← hdeferred]
  cases bs.isDeferred with
  | true => exact newFunc_echoes hS (.rebuilt hb hbs)
  | false => exact built_echoes hhost hS hE hb hbs

/-- A function made of the function forms of two duals. -/
theorem joined_echoes (hS : S.Durable C U) (hE : E.Echoes host C U S) {make : Func → Func → Code}
    (hmake : ∀ {P : Pairing} {f g f' g' : Func}, P (.func f) (.func f') → P (.func g) (.func g') →
      Code.Coupled C U P 1 (make f g) (make f' g'))
    {d' e' : Dual} (hd : W.pairs (.dual d) (.dual d')) (he : W.pairs (.dual e) (.dual e')) :
    Echoes host C U S FuncPaired E W
      (fun E => (do
        let f ← E.function d
        Act.newFunc 1 (make f (← E.function e))))
      fun E => (do
        let f ← E.function d'
        Act.newFunc 1 (make f (← E.function e'))) :=
  (hE.function hd).bind
    (fun _ => (hE.keeps.function _).bind fun _ => (newFunc_concur hS.lasting.identity ..).keeps)
    fun _ hle _ _ hf => (hE.function (hle.pairs _ _ he)).bind
      (fun _ => (newFunc_concur hS.lasting.identity ..).keeps) fun _ hle' _ _ hg =>
        newFunc_echoes hS (hmake (hle'.pairs _ _ hf) hg)

/-- A function made of the function form of a dual. -/
theorem wrapped_echoes (hS : S.Durable C U) (hE : E.Echoes host C U S) {make make' : Func → Code}
    (hmake : ∀ V, W.Later V → ∀ f g, V.pairs (.func f) (.func g) →
      Code.Coupled C U V.pairs 1 (make f) (make' g))
    (hd : W.pairs (.dual d) (.dual e)) :
    Echoes host C U S FuncPaired E W (fun E => (do Act.newFunc 1 (make (← E.function d))))
      fun E => (do Act.newFunc 1 (make' (← E.function e))) :=
  (hE.function hd).bind (fun _ => (newFunc_concur hS.lasting.identity ..).keeps) fun V hle f g hf =>
    newFunc_echoes hS (hmake V hle f g hf)

/-- **The function forms computed for duals that stand for each other.** -/
theorem initialFunction_echoes (hhost : host.Impartial C) (hS : S.Durable C U) (hE : E.Echoes host C U S)
    (hde : W.pairs (.dual d) (.dual e)) :
    Echoes host C U S FuncPaired E W (fun E => d.initialFunction host E)
      fun E => e.initialFunction host E := by
  refine .assuming fun hW => ?_
  have horigin := (hW.dual hde).origin
  unfold Dual.initialFunction
  generalize d.origin = o at horigin ⊢
  generalize e.origin = o' at horigin ⊢
  cases horigin with
  | lambda hl => exact compile_echoes hS hl
  | compiled hf => exact .pure hf
  | bound hwithin hbs => exact bound_echoes hhost hS hE hwithin hbs
  | hosted build rewritten hfunc => exact hhost.buildFunction hS hE hfunc .nil
  | composed hd he => exact joined_echoes hS hE .chain he hd
  | precomposed hd hf => exact wrapped_echoes hS hE (fun V hle f g hfg => .chain (hle.pairs _ _ hf) hfg) hd
  | postcomposed hd hf => exact wrapped_echoes hS hE (fun V hle f g hfg => .chain hfg (hle.pairs _ _ hf)) hd
  | conjunction hd he => exact joined_echoes hS hE .conjunction hd he
  | disjunction hd he => exact joined_echoes hS hE .disjunction hd he
  | negation hd => exact wrapped_echoes hS hE (fun V hle f g hfg => .negation hfg) hd

/-- **Both runs publish a function form,** if it is published in neither or in both. -/
theorem forceFunction_echoes (hhost : host.Impartial C) (hS : S.Durable C U) (hE : E.Echoes host C U S)
    (hde : W.pairs (.dual d) (.dual e))
    (hstep : ∀ V g, W.Later V → V.Sound C U → S.inv V → V.right.functions[e.id]? = some g →
      ∃ f, V.left.functions[d.id]? = some f)
    (hpublish : ∀ V f g, W.Later V → V.Sound C U → S.inv V → V.pairs (.func f) (.func g) →
      V.left.functions[d.id]? = none → V.right.functions[e.id]? = none →
      S.beyond (V.publish d e f g).left ∨ S.inv (V.publish d e f g)) :
    Echoes host C U S FuncPaired E W (fun E => d.forceFunction host E) fun E => e.forceFunction host E := by
  intro hW hSW
  show Echoed host C U S FuncPaired W (fun E => d.forceFunction host E) (fun E => e.forceFunction host E)
    (d.forceFunction host E W.left)
  cases hleft : (Slot.function d).read W.left with
  | some f =>
      -- published in both runs
      obtain ⟨g, hg, hfg⟩ := hW.forms hde hleft
      have hfound : ∀ E, d.forceFunction host E W.left = .ok f W.left := fun E => publishOnce_found hleft
      have hfound' : ∀ E, e.forceFunction host E W.right = .ok g W.right := fun E => publishOnce_found hg
      rw [hfound]
      exact .inr ⟨⟨0, fun _ _ => hfound _⟩, W, g, .refl W, hW, hSW, rfl, ⟨0, fun _ _ => hfound' _⟩, hfg⟩
  | none =>
      have hright : (Slot.function e).read W.right = none := by
        cases hread : (Slot.function e).read W.right with
        | none => rfl
        | some g =>
            obtain ⟨f, hf⟩ := hstep W g (.refl W) hW hSW hread
            exact absurd (hleft.symm.trans hf) nofun
      have hinitial := initialFunction_echoes hhost hS hE hde hW hSW
      unfold Dual.forceFunction
      dsimp only at hinitial
      cases hinit : d.initialFunction host E W.left with
      | error stop t =>
          rw [publishOnce_failed hleft hinit]
          rw [hinit] at hinitial
          cases stop with
          | exhausted => trivial
          | failed err =>
              intro hstrict
              rcases hinitial hstrict with hbeyond | ⟨⟨N, hN⟩, V, hle, hV, hSV, hVl, ⟨M, hM⟩⟩
              · exact .inl hbeyond
              · exact .inr ⟨⟨N, fun n hn => publishOnce_failed hleft (hN n hn)⟩, V, hle, hV, hSV, hVl,
                  ⟨M, fun n hn => publishOnce_failed hright (hM n hn)⟩⟩
      | ok f t =>
          rw [hinit] at hinitial
          rcases hinitial with hbeyond | ⟨⟨N, hN⟩, V, g, hle, hV, hSV, rfl, ⟨M, hM⟩, hfg⟩
          · cases hlate : (Slot.function d).read t with
            | some f' =>
                rw [publishOnce_late hleft hinit hlate]
                exact .inl hbeyond
            | none =>
                rw [publishOnce_first hleft hinit hlate]
                exact .inl (hS.lasting.function t d f hlate hbeyond)
          · have hde' : V.pairs (.dual d) (.dual e) := hle.pairs _ _ hde
            cases hlate : (Slot.function d).read V.left with
            | some f' =>
                -- published in both runs meanwhile
                obtain ⟨g', hg', hfg'⟩ := hV.forms hde' hlate
                rw [publishOnce_late hleft hinit hlate]
                exact .inr ⟨⟨N, fun n hn => publishOnce_late hleft (hN n hn) hlate⟩, V, g', hle, hV, hSV, rfl,
                  ⟨M, fun n hn => publishOnce_late hright (hM n hn) hg'⟩, hfg'⟩
            | none =>
                have hlate' : (Slot.function e).read V.right = none := by
                  cases hread : (Slot.function e).read V.right with
                  | none => rfl
                  | some g =>
                      obtain ⟨f, hf⟩ := hstep V g hle hV hSV hread
                      exact absurd (hlate.symm.trans hf) nofun
                obtain ⟨hpub, hle'⟩ := hV.publish hde' hfg hlate hlate'
                rw [publishOnce_first hleft hinit hlate]
                rcases hpublish V f g hle hV hSV hfg hlate hlate' with hbeyond | hSpub
                · exact .inl hbeyond
                · exact .inr ⟨⟨N, fun n hn => publishOnce_first hleft (hN n hn) hlate⟩, _, g, hle.trans hle',
                    hpub, hSpub, rfl, ⟨M, fun n hn => publishOnce_first hright (hM n hn) hlate'⟩, hfg⟩

end DualForm
