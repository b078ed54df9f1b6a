import DualForm.Proofs.Dual.Ledger
import DualForm.Proofs.Dual.Publication

/-!
# When accessors are read and builders run

* `Act.EndsIn x s r t` — from `s`, the action `x` ends with the result or error `r` in `t`.
* `Event`, `Event.Runs` — host code that the evaluation of a bound dual runs: the read of an accessor, a run
  of the builder of the function, a call of a function.
* `Trace host builders s es t` — from `s` to `t` these events happen one after the other, and nothing else:
  before, between and after them no host code runs.
* `Bindings.Reads`, `Bindings.Builds`, `Bindings.Renews` — what reading the arguments, building a function
  from them, and building and calling it consists of.
* `Round`, `Rounds d s cs` — the evaluations `cs` of `d`, one after the other from `s`, each on a host
  of its own. Between them the store may change in any way that leaves the function of `d` alone.
* `UntilBuilt d cs es` — the builder runs once in each evaluation, up to the first in which it succeeds.

Principal result: `bindArguments_timing` — binding runs no host code; a dual with a deferred argument reads
its accessors once in each evaluation, and builds and calls one function; a dual without one builds once in
each evaluation until it has succeeded, and never again.
-/

namespace DualForm

variable {α β : Type} {host : Host} {builders : Builders} {bs : Bindings} {d : Dual} {s t u v : Store}
  {n : Nat}

/-! ## Ends of actions -/

/-- From `s`, the action ends with this result or error in `t`. -/
def Act.EndsIn (x : Act α) (s : Store) (r : Except Stop α) (t : Store) : Prop :=
  match r with
  | .ok a => x s = .ok a t
  | .error e => x s = .error e t

/-- How the action ends. -/
def Act.outcome (x : Act α) (s : Store) : Except Stop α :=
  match x s with
  | .ok a _ => .ok a
  | .error e _ => .error e

theorem Act.endsIn_outcome (x : Act α) (s : Store) : x.EndsIn s (x.outcome s) (x.final s) := by
  unfold EndsIn outcome final
  cases x s <;> rfl

namespace Act.EndsIn

variable {x : Act α} {f : α → Act β} {r : Except Stop α} {q : Except Stop β}

theorem final (h : x.EndsIn s r t) : x.final s = t := by
  cases r with
  | ok a => exact Act.final_ok h
  | error e => exact Act.final_error h

theorem congr {y : Act α} (hxy : x s = y u) (h : x.EndsIn s r t) : y.EndsIn u r t := by
  cases r with
  | ok a => exact hxy.symm.trans h
  | error e => exact hxy.symm.trans h

theorem of_pure {a : α} (h : (Pure.pure a : Act α).EndsIn s r t) : r = .ok a ∧ t = s := by
  cases r with
  | ok b =>
      obtain ⟨rfl, rfl⟩ := Act.pure_eq_ok.1 h
      exact ⟨rfl, rfl⟩
  | error e => cases h

/-- A sequence ends where its first part fails, or where the second does after the first one. -/
theorem of_bind (h : (x >>= f).EndsIn s q t) :
    (∃ e, q = .error e ∧ x.EndsIn s (.error e) t) ∨ ∃ a u, x.EndsIn s (.ok a) u ∧ (f a).EndsIn u q t := by
  have hx := Act.endsIn_outcome x s
  generalize x.outcome s = r, x.final s = u at hx
  cases r with
  | error e =>
      have hend : (x >>= f) s = .error e u := Act.bind_error hx
      cases q with
      | ok b => cases hend.symm.trans h
      | error e' => cases hend.symm.trans h; exact .inl ⟨e, rfl, hx⟩
  | ok a => exact .inr ⟨a, u, hx, h.congr (Act.bind_ok hx)⟩

/-- What is done with a result does not run anything. -/
theorem of_map {g : α → β} (h : (do return g (← x) : Act β).EndsIn s q t) :
    ∃ r, x.EndsIn s r t ∧ q = r.map g := by
  rcases of_bind h with ⟨e, rfl, hx⟩ | ⟨a, u, hx, hg⟩
  · exact ⟨.error e, hx, rfl⟩
  · obtain ⟨rfl, rfl⟩ := of_pure hg
    exact ⟨.ok a, hx, rfl⟩

end Act.EndsIn

theorem Silent.trans (h : Silent s t) (h' : Silent t u) : Silent s u :=
  ⟨h'.values.trans h.values, h'.cells.trans h.cells, h'.attempts.trans h.attempts, h'.log.trans h.log⟩

/-- Giving out identities and publishing functions is silent. -/
theorem silent_function (s : Store) (nextId : Nat) (d : Dual) (f : Func) :
    Silent s { s with nextId, functions := s.functions.insert d.id f } := ⟨rfl, rfl, rfl, rfl⟩

/-! ## Events -/

/-- Host code that the evaluation of a bound dual runs, with what comes of it. -/
inductive Event where
  /-- The accessor bound to a parameter is read. -/
  | read (formal : FormalParam) (accessor : Compiled) (r : Except Stop Value)
  /-- A function is built from arguments. -/
  | built (args : List Captured) (r : Except Stop Func)
  /-- A function is called. -/
  | called (f : Func) (x : Value) (r : Except Stop Value)

/-- The event leads from one store to another, on some number of nested steps. -/
def Event.Runs (host : Host) (builders : Builders) (s t : Store) : Event → Prop
  | .read _ accessor r => ∃ n, (Deferred.get (machine host n) accessor).EndsIn s r t
  | .built args r => ∃ n, (builders.buildFunction host (machine host n) args).EndsIn s r t
  | .called f x r => ∃ n, ((machine host n).call f [x]).EndsIn s r t

/-- These events happen one after the other. Before, between and after them no host code runs. -/
inductive Trace (host : Host) (builders : Builders) : Store → List Event → Store → Prop
  | done {s t : Store} : Silent s t → Trace host builders s [] t
  | event {s u v t : Store} {e : Event} {es : List Event} : Silent s u → e.Runs host builders u v →
      Trace host builders v es t → Trace host builders s (e :: es) t

namespace Trace

variable {e : Event} {es es' : List Event}

theorem single (h : e.Runs host builders s t) : Trace host builders s [e] t :=
  .event (.refl s) h (.done (.refl t))

theorem silent (h : Silent s t) (hes : Trace host builders t es u) : Trace host builders s es u := by
  cases hes with
  | done h' => exact .done (h.trans h')
  | event h' he hes => exact .event (h.trans h') he hes

theorem append (h : Trace host builders s es t) (h' : Trace host builders t es' u) :
    Trace host builders s (es ++ es') u := by
  induction h with
  | done hs => exact h'.silent hs
  | event hs he _ ih => exact .event hs he (ih h')

end Trace

/-! ## Reading, building and calling -/

namespace Bindings

/-- Reading the arguments: each accessor once, in order, up to the first that fails. -/
inductive Reads : Bindings → List Event → Except Stop (List Captured) → Prop
  | nil : Reads [] [] (.ok [])
  | value {formal : FormalParam} {w : Value} {bs : Bindings} {es : List Event}
      {r : Except Stop (List Captured)} : Reads bs es r →
      Reads ((formal, .value w) :: bs) es (r.map (⟨formal, .value w⟩ :: ·))
  | read {formal : FormalParam} {accessor : Compiled} {w : Value} {bs : Bindings} {es : List Event}
      {r : Except Stop (List Captured)} : Reads bs es r →
      Reads ((formal, .deferred accessor) :: bs) (.read formal accessor (.ok w) :: es)
        (r.map (⟨formal, .value w⟩ :: ·))
  | failed {formal : FormalParam} {accessor : Compiled} {e : Stop} {bs : Bindings} :
      Reads ((formal, .deferred accessor) :: bs) [.read formal accessor (.error e)] (.error e)

/-- Building a function: once, from the arguments read for it. -/
inductive Builds (bs : Bindings) : List Event → Except Stop Func → Prop
  | unread {es : List Event} {e : Stop} : Reads bs es (.error e) → Builds bs es (.error e)
  | built {es : List Event} {args : List Captured} {r : Except Stop Func} : Reads bs es (.ok args) →
      Builds bs (es ++ [.built args r]) r

/-- Building a function and calling it once. -/
inductive Renews (bs : Bindings) (x : Value) : List Event → Except Stop Value → Prop
  | failed {es : List Event} {e : Stop} : Builds bs es (.error e) → Renews bs x es (.error e)
  | called {es : List Event} {f : Func} {r : Except Stop Value} : Builds bs es (.ok f) →
      Renews bs x (es ++ [.called f x r]) r

/-- **Reading the arguments reads each accessor once,** in order, up to the first that fails. -/
theorem resolved_reads : ∀ {bs : Bindings} {s t : Store} {r : Except Stop (List Captured)},
    (bs.resolved (machine host n)).EndsIn s r t →
      ∃ es, Reads bs es r ∧ Trace host builders s es t
  | [], s, t, r, h => by
      obtain ⟨rfl, rfl⟩ := Act.EndsIn.of_pure h
      exact ⟨[], .nil, .done (.refl _)⟩
  | (formal, arg) :: bs, s, t, r, h => by
      have hcons : resolved (machine host n) ((formal, arg) :: bs) = (do
          let c ← arg.resolved (machine host n) formal
          return c :: (← resolved (machine host n) bs)) := List.mapM_cons
      rw [hcons] at h
      cases arg with
      | value w =>
          obtain ⟨q, hq, rfl⟩ := Act.EndsIn.of_map (h.congr (Act.bind_ok rfl))
          obtain ⟨es, hes, htrace⟩ := resolved_reads hq
          exact ⟨es, .value hes, htrace⟩
      | deferred accessor =>
          rcases h.of_bind with ⟨e, rfl, hread⟩ | ⟨c, u, hread, hrest⟩
          · obtain ⟨q, hq, heq⟩ := Act.EndsIn.of_map hread
            cases q with
            | ok w => cases heq
            | error e' => cases heq; exact ⟨_, .failed, .single ⟨n, hq⟩⟩
          · obtain ⟨q, hq, heq⟩ := Act.EndsIn.of_map hread
            cases q with
            | error e' => cases heq
            | ok w =>
                cases heq
                obtain ⟨p, hp, rfl⟩ := hrest.of_map
                obtain ⟨es, hes, htrace⟩ := resolved_reads hp
                exact ⟨_, .read hes, .event (.refl s) ⟨n, hq⟩ htrace⟩

/-- **Building runs the builder once,** on the arguments just read, unless reading them fails. -/
theorem built_builds {r : Except Stop Func} (h : (bs.built host (machine host n) builders).EndsIn s r t) :
    ∃ es, Builds bs es r ∧ Trace host builders s es t := by
  rcases h.of_bind with ⟨e, rfl, hread⟩ | ⟨args, u, hread, hbuild⟩
  · obtain ⟨es, hes, htrace⟩ := resolved_reads hread
    exact ⟨es, .unread hes, htrace⟩
  · obtain ⟨es, hes, htrace⟩ : ∃ es, Reads bs es (.ok args) ∧ Trace host builders s es u :=
      resolved_reads hread
    exact ⟨_, .built hes, htrace.append (.single ⟨n, hbuild⟩)⟩

/-- **Calling a function that is built anew** builds one function and calls it. -/
theorem rebuilt_renews {id : Nat} {x : Value} {r : Except Stop Value}
    (h : ((machine host (n + 1)).call ⟨id, 1, .rebuilt builders bs⟩ [x]).EndsIn s r t) :
    ∃ es, Renews bs x es r ∧ Trace host builders s es t := by
  rcases h.of_bind with ⟨e, rfl, hbuilt⟩ | ⟨f, u, hbuilt, hcall⟩
  · obtain ⟨es, hes, htrace⟩ := built_builds hbuilt
    exact ⟨es, .failed hes, htrace⟩
  · obtain ⟨es, hes, htrace⟩ := built_builds hbuilt
    exact ⟨_, .called hes, htrace.append (.single ⟨n, hcall⟩)⟩

/-- The arguments as builders see them, where none is deferred. -/
def captured (bs : Bindings) : List Captured := bs.map fun (formal, arg) => arg.captured formal

/-- Without deferred arguments there is nothing to read. -/
theorem reads_values : ∀ (bs : Bindings) {es : List Event} {r : Except Stop (List Captured)},
    bs.isDeferred = false → Reads bs es r → es = [] ∧ r = .ok bs.captured
  | _, _, _, _, .nil => ⟨rfl, rfl⟩
  | _ :: bs, _, _, h, .value hrest => by
      obtain ⟨rfl, rfl⟩ := reads_values bs h hrest
      exact ⟨rfl, rfl⟩

theorem builds_values {es : List Event} {r : Except Stop Func} (hbs : bs.isDeferred = false)
    (h : Builds bs es r) : es = [.built bs.captured r] := by
  cases h with
  | unread hread => cases (reads_values bs hbs hread).2
  | built hread =>
      obtain ⟨rfl, heq⟩ := reads_values bs hbs hread
      cases heq
      rfl

end Bindings

/-! ## Evaluations, round by round -/

/-- An evaluation of a dual: the host it runs on, the number of nested steps allowed, the input, and how it
ends. -/
structure Round where
  host : Host
  steps : Nat
  input : Value
  before : Store
  result : Except Stop Value
  after : Store

namespace Round

/-- It evaluates this dual, on a host that touches forms through the engine only. -/
structure Of (d : Dual) (c : Round) : Prop where
  steady : c.host.Steady
  run : (d.evaluate (machine c.host (c.steps + 1)) c.input).EndsIn c.before c.result c.after

/-- What happens in it. -/
def Happens (builders : Builders) (c : Round) (es : List Event) : Prop :=
  Trace c.host builders c.before es c.after

/-- While the function of the dual is computed in it, nobody else is handed the function. -/
def Alone (d : Dual) (c : Round) : Prop := Form.function.Alone c.host c.steps d c.before

variable {c : Round} {f : Func}

/-- The function handed out is published for good, and what happens from then on is one call of it. -/
theorem Of.called (h : c.Of d) {u : Store}
    (hf : (machine c.host (c.steps + 1)).function d c.before = .ok f u) :
    ((machine c.host (c.steps + 1)).call f [c.input]).EndsIn u c.result c.after ∧
      Form.function.Published d f c.after := by
  have hrest : d.evaluate (machine c.host (c.steps + 1)) c.input c.before =
      (machine c.host (c.steps + 1)).call f [c.input] u := Act.bind_ok hf
  have hcall := h.run.congr hrest
  have hasked : Form.function.ask (machine c.host (c.steps + 1)) d c.before = .ok f u := hf
  have hpublished : Form.function.Published d f u := Form.ask_published hasked
  have hkeeps := (machine_keeps (Form.function.lasting_published d f)
    (h.steady.keeps (Form.function.stable_slot d (· = some f))) (c.steps + 1)).call f [c.input]
  refine ⟨hcall, ?_⟩
  have hafter := hkeeps.after u hpublished
  rwa [hcall.final] at hafter

/-- Where no function can be had, the evaluation fails. -/
theorem Of.failed (h : c.Of d) {u : Store} {e : Stop}
    (hf : (machine c.host (c.steps + 1)).function d c.before = .error e u) :
    c.result = .error e ∧ u = c.after := by
  have hrest : d.evaluate (machine c.host (c.steps + 1)) c.input c.before = .error e u := Act.bind_error hf
  have hrun := h.run
  unfold Act.EndsIn at hrun
  split at hrun
  · cases hrest.symm.trans hrun
  · rename_i heq
    cases hrest.symm.trans hrun
    exact ⟨heq, rfl⟩

/-- Where the function is published, it is called and nothing else happens. -/
theorem Of.published (h : c.Of d) (hf : Form.function.Published d f c.before) :
    ((machine c.host (c.steps + 1)).call f [c.input]).EndsIn c.before c.result c.after ∧
      Form.function.Published d f c.after := h.called (publishOnce_found hf)

end Round

/-- Rounds of a dual, one after the other. Between them the store may change in any way that leaves the
function of the dual alone. -/
inductive Rounds (d : Dual) : Store → List Round → Prop
  | nil {s : Store} : Rounds d s []
  | cons {s : Store} {c : Round} {cs : List Round} :
      (Form.function.slot d).read c.before = (Form.function.slot d).read s → c.Of d →
      Rounds d c.after cs → Rounds d s (c :: cs)

/-! ## Functions built anew -/

/-- The function of a dual with a deferred argument, if it has been published. -/
def Rebuilding (builders : Builders) (bs : Bindings) (f : Option Func) : Prop :=
  ∀ g, f = some g → ∃ id, g = ⟨id, 1, .rebuilt builders bs⟩

/-- **An evaluation of a dual with a deferred argument builds and calls one function.** -/
theorem round_renews {c : Round} (h : c.Of d) (ho : d.origin = .bound builders bs)
    (hbs : bs.isDeferred = true) (hform : Rebuilding builders bs ((Form.function.slot d).read c.before)) :
    (∃ es, bs.Renews c.input es c.result ∧ c.Happens builders es) ∧
      Rebuilding builders bs ((Form.function.slot d).read c.after) := by
  cases hread : (Form.function.slot d).read c.before with
  | some f =>
      obtain ⟨id, rfl⟩ := hform f hread
      obtain ⟨hcall, hlater⟩ := h.published hread
      exact ⟨Bindings.rebuilt_renews hcall, fun g hg => ⟨id, Option.some.inj (hg.symm.trans hlater)⟩⟩
  | none =>
      -- The function is made and published first, which runs no host code.
      let f : Func := ⟨c.before.nextId, 1, .rebuilt builders bs⟩
      let made : Store := { c.before with nextId := c.before.nextId + 1 }
      have hinitial : d.initialFunction c.host (machine c.host c.steps) c.before = .ok f made := by
        unfold Dual.initialFunction
        rw [ho]
        show Bindings.function c.host (machine c.host c.steps) builders bs c.before = _
        unfold Bindings.function
        rw [if_pos hbs]
        rfl
      have hforce : (machine c.host (c.steps + 1)).function d c.before =
          .ok f ((Slot.function d).write f made) := publishOnce_first hread hinitial hread
      obtain ⟨hcall, hlater⟩ := h.called hforce
      obtain ⟨es, hes, htrace⟩ := Bindings.rebuilt_renews hcall
      exact ⟨⟨es, hes, htrace.silent (silent_function ..)⟩,
        fun g hg => ⟨c.before.nextId, Option.some.inj (hg.symm.trans hlater)⟩⟩

/-! ## Functions built once -/

/-- Every evaluation is one call of this function. -/
def AllCall (builders : Builders) (f : Func) (cs : List Round) : Prop :=
  ∀ c ∈ cs, c.Happens builders [.called f c.input c.result]

/-- The builder runs once in each evaluation, on these arguments, up to the first in which it succeeds. -/
inductive UntilBuilt (d : Dual) (builders : Builders) (args : List Captured) : List Round → Prop
  | nil : UntilBuilt d builders args []
  /-- It fails, and the evaluation with it. The next one runs it again. -/
  | failed {c : Round} {cs : List Round} {e : Stop} :
      c.Happens builders [.built args (.error e)] → c.result = .error e → UntilBuilt d builders args cs →
      UntilBuilt d builders args (c :: cs)
  /-- It succeeds. What it has built is called, now and from now on, unless host code that ran meanwhile has
  been handed another function of the dual. -/
  | built {c : Round} {cs : List Round} {f g : Func} :
      c.Happens builders [.built args (.ok f), .called g c.input c.result] → (g = f ∨ ¬ c.Alone d) →
      AllCall builders g cs → UntilBuilt d builders args (c :: cs)
  /-- It fails after host code that ran meanwhile has been handed a function of the dual. -/
  | overtaken {c : Round} {cs : List Round} {e : Stop} {g : Func} :
      c.Happens builders [.built args (.error e)] → c.result = .error e → ¬ c.Alone d →
      AllCall builders g cs → UntilBuilt d builders args (c :: cs)

/-- Once the function is published, it is called in every evaluation, and nothing else happens. -/
theorem rounds_call {f : Func} {cs : List Round} (h : Rounds d s cs)
    (hf : Form.function.Published d f s) : AllCall builders f cs := by
  induction h with
  | nil => intro c hc; cases hc
  | cons hbetween hc _ ih =>
      obtain ⟨hcall, hlater⟩ := hc.published (hbetween.trans hf)
      intro c' hc'
      rcases List.mem_cons.1 hc' with rfl | hc'
      · exact .single ⟨_, hcall⟩
      · exact ih hlater c' hc'

/-- What comes of the first run of the builder: the evaluation fails with it, or calls a function. The function of
the dual is then the one that has been built, or none, unless host code that ran meanwhile has been handed
another one. -/
inductive Attempted (d : Dual) (builders : Builders) (args : List Captured) (c : Round) : Prop
  | failed {e : Stop} : c.Happens builders [.built args (.error e)] → c.result = .error e →
      (∀ g, Form.function.Published d g c.after → ¬ c.Alone d) → Attempted d builders args c
  | succeeded {f g : Func} : c.Happens builders [.built args (.ok f), .called g c.input c.result] →
      (g = f ∨ ¬ c.Alone d) → Form.function.Published d g c.after → Attempted d builders args c

/-- **Where the function is not published, an evaluation runs the builder once.** -/
theorem round_built {c : Round} (h : c.Of d) (ho : d.origin = .bound builders bs)
    (hbs : bs.isDeferred = false) (hs : Form.function.Unpublished d c.before) :
    Attempted d builders bs.captured c := by
  have hinitial : d.initialFunction c.host (machine c.host c.steps) =
      bs.built c.host (machine c.host c.steps) builders := by
    unfold Dual.initialFunction
    rw [ho]
    exact if_neg (by rw [hbs]; exact Bool.false_ne_true)
  have hbuilt := Act.endsIn_outcome (bs.built c.host (machine c.host c.steps) builders) c.before
  generalize Act.outcome _ c.before = r, Act.final _ c.before = u at hbuilt
  have hmeanwhile : ∀ {g}, Form.function.Published d g u → ¬ c.Alone d := by
    intro g hg halone
    have hfinal : (Form.function.initial c.host (machine c.host c.steps) d).final c.before = u :=
      (congrArg (fun x : Act Func => x.final c.before) hinitial).trans hbuilt.final
    have hnone := Form.Alone.unpublished h.steady halone hs
    rw [hfinal] at hnone
    cases hnone.symm.trans hg
  obtain ⟨es, hes, htrace⟩ := Bindings.built_builds hbuilt
  obtain rfl := Bindings.builds_values hbs hes
  cases r with
  | error e =>
      have hforce : (machine c.host (c.steps + 1)).function d c.before = .error e u :=
        publishOnce_failed hs (hinitial ▸ hbuilt)
      obtain ⟨hresult, rfl⟩ := h.failed hforce
      exact .failed htrace hresult fun g hg => hmeanwhile hg
  | ok f =>
      cases hread : (Form.function.slot d).read u with
      | none =>
          have hforce : (machine c.host (c.steps + 1)).function d c.before =
              .ok f ((Slot.function d).write f u) := publishOnce_first hs (hinitial ▸ hbuilt) hread
          obtain ⟨hcall, hlater⟩ := h.called hforce
          have hcalled : Trace c.host builders ((Slot.function d).write f u) [.called f c.input c.result]
              c.after := .single ⟨_, hcall⟩
          exact .succeeded (htrace.append (hcalled.silent (silent_function u u.nextId d f))) (.inl rfl) hlater
      | some g =>
          have hforce : (machine c.host (c.steps + 1)).function d c.before = .ok g u :=
            publishOnce_late hs (hinitial ▸ hbuilt) hread
          obtain ⟨hcall, hlater⟩ := h.called hforce
          exact .succeeded (htrace.append (.single ⟨_, hcall⟩)) (.inr (hmeanwhile hread)) hlater

/-- **The builder runs once in each evaluation until it has succeeded, and never again.** -/
theorem rounds_untilBuilt {cs : List Round} (h : Rounds d s cs)
    (ho : d.origin = .bound builders bs) (hbs : bs.isDeferred = false)
    (hs : Form.function.Unpublished d s) : UntilBuilt d builders bs.captured cs := by
  induction h with
  | nil => exact .nil
  | @cons s c cs hbetween hc hcs ih =>
      cases round_built hc ho hbs (hbetween.trans hs) with
      | failed hhappens hresult hmeanwhile =>
          cases hread : (Form.function.slot d).read c.after with
          | none => exact .failed hhappens hresult (ih hread)
          | some g => exact .overtaken hhappens hresult (hmeanwhile g hread) (rounds_call hcs hread)
      | succeeded hhappens hsame hlater => exact .built hhappens hsame (rounds_call hcs hlater)

/-- **In each evaluation the accessors are read anew,** and one function is built and called. -/
theorem rounds_renew {cs : List Round} (h : Rounds d s cs)
    (ho : d.origin = .bound builders bs) (hbs : bs.isDeferred = true)
    (hs : Rebuilding builders bs ((Form.function.slot d).read s)) :
    ∀ c ∈ cs, ∃ es, bs.Renews c.input es c.result ∧ c.Happens builders es := by
  induction h with
  | nil => intro c hc; cases hc
  | cons hbetween hc _ ih =>
      obtain ⟨hrenews, hlater⟩ := round_renews hc ho hbs (hbetween ▸ hs)
      intro c' hc'
      rcases List.mem_cons.1 hc' with rfl | hc'
      · exact hrenews
      · exact ih hlater c' hc'

/-! ## Binding -/

/-- **Binding gives out identities and does nothing else,** whether it succeeds or fails. -/
theorem bindArguments_silent (k : Factory) (args : List Argument) (s : Store) :
    ∃ m, (k.bindArguments args).final s = { s with nextId := m } := by
  obtain ⟨id, kind, builders, bound, next, second, source, result⟩ := k
  match second, args with
  | none, [] | some _, [] | none, _ :: _ :: _ | some _, _ :: _ :: _ :: _ => exact ⟨s.nextId, rfl⟩
  | none, [_] | some _, [_] | some _, [_, _] => exact ⟨s.nextId + 1, rfl⟩

/-- A dual comes of binding all open parameters. -/
theorem bindArguments_dual {k : Factory} {args : List Argument}
    (h : k.bindArguments args s = .ok (.dual d) t) :
    d.id = s.nextId ∧ d.origin = .bound k.builders (k.bound ++ k.openParams.zip args) ∧
      t = { s with nextId := s.nextId + 1 } := by
  obtain ⟨id, kind, builders, bound, next, second, source, result⟩ := k
  match second, args with
  | none, [] | some _, [] | none, _ :: _ :: _ | some _, _ :: _ :: _ :: _ => cases h
  | some _, [_] => cases h
  | none, [_] | some _, [_, _] => cases h; exact ⟨rfl, rfl, rfl⟩

/-- **When accessors are read and builders run.** Binding arguments to a factory runs no host code at all. Let
a dual be made in this way, and evaluated any number of times, on hosts that may fail and do something else
each time.

* If an argument is deferred, each evaluation reads every deferred argument once, in the order of the
  parameters, up to the first read that fails, which ends it; if none fails, it builds one function from
  the values just read, and if that succeeds, calls it once.
* If no argument is deferred, the function is built once in each evaluation until this succeeds, and what
  has been built is called in this evaluation and all later ones, which build nothing. -/
theorem bindArguments_timing (k : Factory) (args : List Argument) (hs : Fresh s) :
    (∃ m, (k.bindArguments args).final s = { s with nextId := m }) ∧
    ∀ d t, k.bindArguments args s = .ok (.dual d) t → ∀ cs, Rounds d t cs →
      let bs : Bindings := k.bound ++ k.openParams.zip args
      (bs.isDeferred = true → ∀ c ∈ cs, ∃ es, bs.Renews c.input es c.result ∧ c.Happens k.builders es) ∧
      (bs.isDeferred = false → UntilBuilt d k.builders bs.captured cs) := by
  refine ⟨bindArguments_silent k args s, fun d t hd cs hcs => ?_⟩
  obtain ⟨hid, ho, rfl⟩ := bindArguments_dual hd
  have hnone : Form.function.Unpublished d { s with nextId := s.nextId + 1 } := by
    show s.functions[d.id]? = none
    rw [hid]
    exact hs.functions _ (Nat.le_refl _)
  refine ⟨fun hbs => rounds_renew hcs ho hbs fun g hg => ?_, fun hbs =>
    rounds_untilBuilt hcs ho hbs hnone⟩
  cases hnone.symm.trans hg

/-! ## A builder that fails at first -/

/-- Rounds in a row, on one host and one input, with as many nested steps each. -/
def Round.row (host : Host) (d : Dual) (steps : Nat) (input : Value) : Nat → Store → List Round
  | 0, _ => []
  | count + 1, s =>
      let x := d.evaluate (machine host (steps + 1)) input
      ⟨host, steps, input, s, x.outcome s, x.final s⟩ :: row host d steps input count (x.final s)

theorem rounds_row (hhost : host.Steady) (d : Dual) (steps : Nat) (input : Value) :
    ∀ (count : Nat) (s : Store), Rounds d s (Round.row host d steps input count s)
  | 0, _ => .nil
  | count + 1, _ => .cons rfl ⟨hhost, Act.endsIn_outcome ..⟩ (rounds_row hhost d steps input count _)

namespace Flaky

/-- A parameter of a factory. -/
def amount : FormalParam := ⟨"amount", .int⟩

/-- A factory over the builder that fails the first time it is run. -/
def factory : Factory := ⟨0, .projection, .tree 0, [], amount, none, .int, .int⟩

/-- What it makes of the number 5. -/
def bound : Dual := ⟨0, .projection, .int, .int, .bound (.tree 0) [(amount, .value (.int 5))]⟩

/-- The store in which it has been made. -/
def made : Store := { Store.initial with nextId := 1 }

theorem evaluate_fails (x : Value) : (bound.evaluate (machine registry.host 3) x).outcome made =
    .error (.failed (.host "flaky")) := by
  have hattempts : (made.attempts[7]?).getD 0 = 0 := by simp [made, Store.initial]
  have hflaky : failFirst 7 1 made =
      .error (.failed (.host "flaky")) { made with attempts := made.attempts.insert 7 1 } := by
    show (if (made.attempts[7]?).getD 0 < 1 then _ else _ : Act Unit) made = _
    rw [hattempts]; rfl
  have hbuild : registry.host.buildTree (machine registry.host 2) 0 [⟨amount, .value (.int 5)⟩] made =
      .error (.failed (.host "flaky")) _ := Act.bind_error hflaky
  have hinitial : bound.initialFunction registry.host (machine registry.host 2) made =
      .error (.failed (.host "flaky")) _ := (Act.bind_ok rfl).trans (Act.bind_error hbuild)
  have hnone : Form.function.Unpublished bound made := by
    show made.functions[bound.id]? = none
    simp [made, Store.initial]
  have hforce : (machine registry.host 3).function bound made = .error (.failed (.host "flaky")) _ :=
    publishOnce_failed hnone hinitial
  have hevaluate : bound.evaluate (machine registry.host 3) x made = .error (.failed (.host "flaky")) _ :=
    Act.bind_error hforce
  unfold Act.outcome
  rw [hevaluate]

/-- The builder fails the first time, and the first of three evaluations with it; the next one runs it
again. -/
theorem bindArguments_timing_flaky :
    Fresh .initial ∧ factory.bindArguments [.value (.int 5)] .initial = .ok (.dual bound) made ∧
      (bound.evaluate (machine registry.host 3) (.int 7)).outcome made = .error (.failed (.host "flaky")) ∧
      UntilBuilt bound (.tree 0) [⟨amount, .value (.int 5)⟩]
        (Round.row registry.host bound 2 (.int 7) 3 made) := by
  have htiming := bindArguments_timing factory [.value (.int 5)] fresh_initial
  have hrounds := rounds_row (registry_steady registry) bound 2 (.int 7) 3 made
  exact ⟨fresh_initial, rfl, evaluate_fails _, (htiming.2 bound made rfl _ hrounds).2 rfl⟩

end Flaky

end DualForm
