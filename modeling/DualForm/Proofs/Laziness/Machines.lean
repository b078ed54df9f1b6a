import DualForm.Host.Registry
import DualForm.Proofs.Laziness.Passes

/-!
# Machines that answer requests for tree forms differently

* `Host.Uniform host p` — routines with `p` do the same on values that stand for each other: they look at
  functions and duals through the engine only, and keep no state.
* `Routine.Takes name held args` — what the registered routine of this name is run on.

Principal results: `machineAsking_mirrors` — the answers of a machine are mirrored by those of another one if
its answers to requests for tree forms are; `registry_uniform` — registered routines that neither read cells
nor count attempts are uniform.
-/

namespace DualForm

variable {G : Ground} {X : World → Prop} {F : Nat → Engine} {E : Engine} {W : World} {host : Host}
  {f g : Func} {v w : Value} {vs ws : List Value} {d e : Dual}

/-- On values that stand for each other, routines with `p` do the same. -/
def Host.Uniform (host : Host) (p : String → Prop) : Prop :=
  ∀ {G : Ground} {X : World → Prop} {F : Nat → Engine} {E : Engine} {W : World} {name : String}
    {held held' args args' : List Value} (self self' : Nat), p name → Durable G X → E.Mirrors G X F →
    W.values held held' → W.values args args' →
    Mirrors G X F World.value W (host.run E self name held args) fun E => host.run E self' name held' args'

/-! ## Calls -/

theorem holds_mirrors (hE : E.Mirrors G X F) (context : String) (hf : W.function f g) (hv : W.value v w) :
    Mirrors G X F (fun _ => Eq) W (f.holds E context v) fun E => g.holds E context w :=
  (hE.call hf (.cons hv .nil)).bind fun _ _ _ _ hx => bool_mirrors context hx

/-- What functions that stand for each other do. -/
theorem code_mirrors (hhost : host.Uniform G.routines) (hX : Durable G X) (hE : E.Mirrors G X F)
    {c c' : Code} (hc : CodeRelated G W.function W.duals c c') (hvs : W.values vs ws) (self self' : Nat) :
    Mirrors G X F World.value W (c.run host E self vs) fun E => c'.run host E self' ws := by
  have hbool : ∀ {V : World} {b : Bool}, Mirrors G X F World.value V (pure (.bool b)) fun _ => pure (.bool b) :=
    .pure (.scalar rfl)
  have harity : ∀ {vs ws : List Value}, W.values vs ws → Mirrors G X F World.value W
      (Act.fail (.arityMismatch 1 vs.length)) fun _ => Act.fail (.arityMismatch 1 ws.length) := fun hvs => by
    rw [hvs.length]
    exact .fail _
  cases hc with
  | closure hl hσ => exact evaluate_mirrors hX hE hl (hσ.bindAll hvs _)
  | host hname hheld => exact hhost self self' hname hX hE hheld hvs
  | chain hf hg =>
      cases hvs with
      | nil => exact harity .nil
      | cons hv hvs =>
          cases hvs with
          | cons hv' hvs => exact harity (.cons hv (.cons hv' hvs))
          | nil =>
              exact (hE.call hf (.cons hv .nil)).bind fun _ hle _ _ hx =>
                hE.call (hle.function _ _ hg) (.cons hx .nil)
  | conjunction hf hg =>
      cases hvs with
      | nil => exact harity .nil
      | cons hv hvs =>
          cases hvs with
          | cons hv' hvs => exact harity (.cons hv (.cons hv' hvs))
          | nil =>
              refine (holds_mirrors hE _ hf hv).bind fun V hle b c hbc => ?_
              subst hbc
              cases b with
              | false => exact hbool
              | true =>
                  refine (holds_mirrors hE _ (hle.function _ _ hg) (hle.value hv)).bind fun U _ b c hbc => ?_
                  subst hbc
                  exact hbool
  | disjunction hf hg =>
      cases hvs with
      | nil => exact harity .nil
      | cons hv hvs =>
          cases hvs with
          | cons hv' hvs => exact harity (.cons hv (.cons hv' hvs))
          | nil =>
              refine (holds_mirrors hE _ hf hv).bind fun V hle b c hbc => ?_
              subst hbc
              cases b with
              | true => exact hbool
              | false =>
                  refine (holds_mirrors hE _ (hle.function _ _ hg) (hle.value hv)).bind fun U _ b c hbc => ?_
                  subst hbc
                  exact hbool
  | negation hf =>
      cases hvs with
      | nil => exact harity .nil
      | cons hv hvs =>
          cases hvs with
          | cons hv' hvs => exact harity (.cons hv (.cons hv' hvs))
          | nil =>
              refine (holds_mirrors hE _ hf hv).bind fun V hle b c hbc => ?_
              subst hbc
              exact hbool

theorem apply_mirrors (hhost : host.Uniform G.routines) (hX : Durable G X) (hE : E.Mirrors G X F)
    (hf : W.function f g) (hvs : W.values vs ws) :
    Mirrors G X F World.value W (f.apply host E vs) fun E => g.apply host E ws := by
  refine .assuming fun hW => ?_
  obtain ⟨harity, hcode⟩ := hW.function_related hf
  unfold Func.apply
  rw [← harity, ← hvs.length]
  by_cases hlength : vs.length ≠ f.arity
  · simp only [if_pos hlength]
    exact .fail _
  · simp only [if_neg hlength]
    exact code_mirrors hhost hX hE hcode hvs f.id g.id

/-! ## Requests for forms -/

theorem compiledTree_mirrors {c c' : Compiled} (hc : CompiledRelated G W.funcs c c') :
    Mirrors G X F (SameLambda G) W (c.tree host E) fun E => c'.tree host E := by
  obtain ⟨l, hl, hl', hgiven⟩ := hc.tree
  unfold Compiled.tree
  rw [hl, hl']
  exact .pure ⟨rfl, hgiven⟩

/-- The trees computed for duals that have been made in the same way. -/
theorem initialTree_mirrors (hE : E.Mirrors G X F) (hde : W.duals d e) :
    Mirrors G X F (SameLambda G) W (d.initialTree host E) fun E => e.initialTree host E := by
  refine .assuming fun hW => ?_
  have horigin := (hW.dual hde).origin
  unfold Dual.initialTree
  generalize d.origin = o at horigin ⊢
  generalize e.origin = o' at horigin ⊢
  cases horigin with
  | lambda hl => exact rewriteLambda_mirrors hE hl
  | compiled hc => exact (compiledTree_mirrors hc).bindSame fun V _ l hl => rewriteLambda_mirrors hE hl
  | composed hd he =>
      refine (hE.tree hd).bindSame fun V hle l hl => (hE.tree (hle.duals he)).bindSame fun U _ k hk => ?_
      exact .liftSame fun r hr => composed_given hl hk hr
  | precomposed hd hc =>
      refine (hE.tree hd).bindSame fun V hle l hl => ?_
      refine (compiledTree_mirrors (hc.mono fun _ _ => hle.funcs)).bindSame fun U _ k hk => ?_
      exact .liftSame fun r hr => composed_given hl hk hr
  | postcomposed hd hc =>
      refine (hE.tree hd).bindSame fun V hle l hl => ?_
      refine (compiledTree_mirrors (hc.mono fun _ _ => hle.funcs)).bindSame fun U _ k hk => ?_
      exact .liftSame fun r hr => composed_given hk hl (Lambda.continued_ok.1 hr)
  | conjunction hd he =>
      refine (hE.tree hd).bindSame fun V hle l hl => (hE.tree (hle.duals he)).bindSame fun U _ k hk => ?_
      exact .liftSame fun r hr => combined_given hl hk hr
  | disjunction hd he =>
      refine (hE.tree hd).bindSame fun V hle l hl => (hE.tree (hle.duals he)).bindSame fun U _ k hk => ?_
      exact .liftSame fun r hr => combined_given hl hk hr
  | negation hd =>
      refine (hE.tree hd).bindSame fun V hle l hl => ?_
      exact .liftSame fun r hr => negation_given hl hr

section Machines

variable {ask ask' : Engine → Dual → Act Lam}

/-- Both machines return a function form, whatever has been published before. -/
theorem function_mirrors (hX : Durable G X) (n : Nat) (hde : W.duals d e) :
    Mirrors G X (machineAsking host ask') World.function W ((machineAsking host ask n).function d)
      fun E => E.function e := by
  intro hW hXW
  obtain ⟨f, t, hf, ht, hpub⟩ : ∃ f t, Sure (machineAsking host ask) (fun E => E.function d) W.left f t ∧
      Obtained (W.known .left) W.left t ∧ t.functions[d.id]? = some f :=
    function_sure (hW.pedigree .left) d W.left (World.known_of .left hde) (hW.forms .left)
  obtain ⟨g, u, hg, hu, hpub'⟩ : ∃ g u,
      Sure (machineAsking host ask') (fun E => E.function e) W.right g u ∧
      Obtained (W.known .right) W.right u ∧ u.functions[e.id]? = some g :=
    function_sure (hW.pedigree .right) e W.right (World.known_of .right hde) (hW.forms .right)
  rcases hf.only n with h | ⟨_, h⟩
  · rw [h]
    obtain ⟨hleft, hle⟩ := hW.move (a := .left) ht.forms ht.grown
    obtain ⟨hboth, hle'⟩ := hleft.move (a := .right) hu.forms hu.grown
    have hquiet : Quiet W ((W.move .left t).move .right u) := by
      refine ⟨fun a => ?_, .inl⟩
      cases a with
      | left => exact ht.trees
      | right => exact hu.trees
    exact ⟨_, g, hle.trans hle', hboth, hX _ _ hW hboth (hle.trans hle') hquiet hXW, rfl, hg.lands,
      .inr ⟨d, e, hde, hpub, hpub'⟩⟩
  · rw [h]
    trivial

/-- **The answers of a machine are mirrored by another one** that mirrors its answers to requests for
tree forms. -/
theorem machineAsking_mirrors (hhost : host.Uniform G.routines) (hX : Durable G X)
    (htree : ∀ n, (machineAsking host ask n).Mirrors G X (machineAsking host ask') →
      ∀ {W : World} {d e : Dual}, W.duals d e → Mirrors G X (machineAsking host ask') (SameLambda G) W
        (ask (machineAsking host ask n) d) fun E => ask' E e) :
    ∀ n, (machineAsking host ask n).Mirrors G X (machineAsking host ask')
  | 0 => ⟨fun _ _ => .exhausted, fun _ => .exhausted, fun _ => .exhausted, fun _ _ => .exhausted⟩
  | n + 1 => by
      have hE := machineAsking_mirrors hhost hX htree n
      exact ⟨fun hf hvs => (apply_mirrors hhost hX hE hf hvs).step fun _ => rfl,
        fun hde => (htree n hE hde).step fun _ => rfl, fun hde => function_mirrors hX (n + 1) hde,
        fun ht pass => (pass_mirrors hE pass ht _).step fun _ => rfl⟩

end Machines

/-! ## Registered routines -/

/-- Routines without state. -/
def Routine.Stateless (name : String) : Prop := name ≠ "cell" ∧ name ≠ "flaky"

theorem logLine_mirrors (hX : Durable G X) (line : String) :
    Mirrors G X F (fun _ => Eq) W (Act.logLine line) fun _ => Act.logLine line := by
  intro hW hXW
  obtain ⟨hW', hle, hquiet⟩ := hW.idle (s := { W.left with log := W.left.log.push line })
    (t := { W.right with log := W.right.log.push line }) ⟨rfl, rfl, Nat.le_refl _⟩ ⟨rfl, rfl, Nat.le_refl _⟩
  exact ⟨_, (), hle, hW', hX _ _ hW hW' hle hquiet hXW, rfl, ⟨0, fun _ _ => rfl⟩, rfl⟩

theorem increment_related (hW : W.Sound G) (hv : W.value v w) :
    ExceptRelated W.value (Routine.increment v) (Routine.increment w) := by
  have hty := hW.ty_eq hv
  cases hv with
  | scalar hs => cases v <;> first | exact .ok (.scalar rfl) | exact .error _
  | list | record | func | dual =>
      unfold Routine.increment
      dsimp only
      rw [hty]
      exact .error _

theorem length_related (hv : W.value v w) : W.value (Routine.length v) (Routine.length w) := by
  cases hv with
  | scalar => cases v <;> exact .scalar rfl
  | list | record | func | dual => exact .scalar rfl

/-- The routine of this name can be run while it holds `held` and is given `args`. -/
inductive Routine.Takes : String → List Value → List Value → Prop
  | id (held : List Value) (x : Value) : Takes "id" held [x]
  | len (held : List Value) (x : Value) : Takes "len" held [x]
  | inc (held : List Value) (x : Value) : Takes "inc" held [x]
  | pack (held args : List Value) : Takes "pack" held args
  | arg (index : Int64) (args : List Value) : Takes "arg" [.int index] args
  | const (v : Value) (args : List Value) : Takes "const" [v] args
  | fail (message : String) (args : List Value) : Takes "fail" [.str message] args
  | apply (held : List Value) (v x : Value) : Takes "apply" held [v, x]
  | cell (name : String) (args : List Value) : Takes "cell" [.str name] args
  | flaky (fails : Int64) (f : Func) (args : List Value) : Takes "flaky" [.int fails, .func f] args
  | trace (label : String) (f : Func) (args : List Value) : Takes "trace" [.str label, .func f] args

theorem Routine.run_refused {self : Nat} {name : String} {held args : List Value}
    (h : ¬ Routine.Takes name held args) :
    Routine.run E self name held args = Act.fail (.host ("routine `" ++ name ++ "` cannot run")) := by
  unfold Routine.run
  split
  all_goals first | exact absurd (by constructor) h | rfl

theorem Routine.Takes.related {held held' args args' : List Value} {name : String}
    (hheld : W.values held held') (hargs : W.values args args') (h : Routine.Takes name held' args') :
    Routine.Takes name held args := by
  cases h with
  | id | len | inc =>
      rcases hargs with _ | ⟨_, _ | _⟩
      constructor
  | pack => constructor
  | const =>
      rcases hheld with _ | ⟨_, _ | _⟩
      constructor
  | arg | fail | cell =>
      rcases hheld with _ | ⟨⟨_⟩, _ | _⟩
      constructor
  | apply =>
      rcases hargs with _ | ⟨_, _ | ⟨_, _ | _⟩⟩
      constructor
  | flaky | trace =>
      rcases hheld with _ | ⟨⟨_⟩, _ | ⟨_ | _, _ | _⟩⟩
      all_goals constructor

theorem Routine.run_apply {self : Nat} {held : List Value} (h : ∀ f, v ≠ .func f) (x : Value) :
    Routine.run E self "apply" held [v, x] = Act.fail (.typeMismatch "function" (Value.ty v).text) := by
  cases v with
  | func f => exact absurd rfl (h f)
  | _ => rfl

/-- A function is called, anything else refused. -/
theorem application_mirrors (hE : E.Mirrors G X F) {held held' : List Value} {x y : Value} (self self' : Nat)
    (hv : W.value v w) (hx : W.value x y) :
    Mirrors G X F World.value W (Routine.run E self "apply" held [v, x])
      fun E => Routine.run E self' "apply" held' [w, y] := by
  refine .assuming fun hW => ?_
  have hother : (∀ f, v ≠ .func f) → (∀ f, w ≠ .func f) →
      Mirrors G X F World.value W (Routine.run E self "apply" held [v, x])
        fun E => Routine.run E self' "apply" held' [w, y] := fun hnv hnw => by
    rw [Routine.run_apply hnv]
    simp only [Routine.run_apply hnw]
    rw [hW.ty_eq hv]
    exact .fail _
  cases hv with
  | func hf => exact hE.call hf (.cons hx .nil)
  | scalar hs =>
      have hnv : ∀ f, v ≠ .func f := fun f h => by rw [h] at hs; exact absurd hs Bool.false_ne_true
      exact hother hnv hnv
  | list | record | dual => exact hother (fun f h => by cases h) fun f h => by cases h

/-- A line is written first. -/
theorem trace_mirrors (hX : Durable G X) (hE : E.Mirrors G X F) (label : String) (self self' : Nat)
    (hf : W.function f g) (hvs : W.values vs ws) :
    Mirrors G X F World.value W (Routine.run E self "trace" [.str label, .func f] vs)
      fun E => Routine.run E self' "trace" [.str label, .func g] ws := by
  refine .assuming fun hW => ?_
  show Mirrors G X F World.value W
    (Act.logLine (label ++ "(" ++ ", ".intercalate (Value.texts vs) ++ ")") >>= fun _ => E.call f vs)
    fun E => Act.logLine (label ++ "(" ++ ", ".intercalate (Value.texts ws) ++ ")") >>= fun _ => E.call g ws
  rw [hW.texts_eq hvs]
  exact (logLine_mirrors hX _).bind fun _ hle _ _ _ => hE.call (hle.function _ _ hf) (hle.values hvs)

/-- **Registered routines that neither read cells nor count attempts** do the same on values that stand for
each other. -/
theorem registry_uniform (r : Registry) : r.host.Uniform Routine.Stateless := by
  intro G X F E W name held held' args args' self self' hname hX hE hheld hargs
  show Mirrors G X F World.value W (Routine.run E self name held args)
    fun E => Routine.run E self' name held' args'
  by_cases htakes : Routine.Takes name held args
  · cases htakes with
    | id =>
        rcases hargs with _ | ⟨hx, _ | _⟩
        exact .pure hx
    | len =>
        rcases hargs with _ | ⟨hx, _ | _⟩
        exact .pure (length_related hx)
    | inc =>
        rcases hargs with _ | ⟨hx, _ | _⟩
        exact .assuming fun hW => .lift (increment_related hW hx)
    | pack => exact .pure (.list hargs)
    | arg =>
        rcases hheld with _ | ⟨⟨_⟩, _ | _⟩
        exact .pure (hargs.getD .null rfl _)
    | const =>
        rcases hheld with _ | ⟨hv, _ | _⟩
        exact .pure hv
    | fail =>
        rcases hheld with _ | ⟨⟨_⟩, _ | _⟩
        exact .fail _
    | apply =>
        rcases hargs with _ | ⟨hv, _ | ⟨hx, _ | _⟩⟩
        exact application_mirrors hE self self' hv hx
    | cell => exact absurd rfl hname.1
    | flaky => exact absurd rfl hname.2
    | trace label f =>
        rcases hheld with _ | ⟨⟨_⟩, _ | ⟨hf, _ | _⟩⟩
        cases hf with
        | scalar hs => exact absurd hs Bool.false_ne_true
        | func hf => exact trace_mirrors hX hE label self self' hf hargs
  · rw [Routine.run_refused htakes]
    simp only [Routine.run_refused fun h => htakes (h.related hheld hargs)]
    exact .fail _

end DualForm
