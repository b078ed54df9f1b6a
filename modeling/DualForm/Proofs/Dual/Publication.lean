import DualForm.Proofs.Dual.Simulation
import DualForm.Proofs.Host
import DualForm.Proofs.Triple
import DualForm.Rewriting.Pass

/-!
# Forms are published once

* `Form` — the tree form or the function form; `Form.slot`, `Form.initial`, `Form.ask` — where it is
  published, how it is computed, and the request for it.
* `Initialisers`, `machineWith` — the machine on other ways to compute forms; on the standard ones it is
  `machine`.
* `Host.Steady host` — host code may fail and do something else each time, but it asks the engine for
  forms and leaves the published ones alone.
* `Api host y` — `y` is a call of the interface; `Session host s t` — calls of the interface, and changes
  to the state of host code between them, lead from `s` to `t`. Calls may fail.
* `Form.Alone` — no call for the form, made while it is computed, returns it.

Principal result: `Form.published_once` — a form returned once is returned by every later call for it on
the same dual, and nothing depends any more on how it is computed. A call that fails has computed the
form, published nothing itself, and the next call computes it again.
-/

namespace DualForm

open Act (Keeps Concur)

variable {host : Host} {I : Store → Prop} {E E' : Engine} {n : Nat} {s t u : Store} {d e : Dual}

/-! ## The forms of a dual -/

/-- One of the two forms. -/
inductive Form where
  | tree
  | function
deriving DecidableEq

namespace Form

/-- What the form is. -/
def Result : Form → Type
  | .tree => Lam
  | .function => Func

/-- Where the form is published. -/
def slot : (form : Form) → Dual → Slot form.Result
  | .tree => Slot.tree
  | .function => Slot.function

/-- The form, computed. -/
def initial (host : Host) (E : Engine) : (form : Form) → Dual → Act form.Result
  | .tree => Dual.initialTree host E
  | .function => Dual.initialFunction host E

/-- The form, requested. -/
def ask (E : Engine) : (form : Form) → Dual → Act form.Result
  | .tree => E.tree
  | .function => E.function

variable (form : Form)

/-- The form of the dual with this identity has been published. -/
def Published (d : Dual) (a : form.Result) (s : Store) : Prop := (form.slot d).read s = some a

/-- The form of the dual with this identity has not been published. -/
def Unpublished (d : Dual) (s : Store) : Prop := (form.slot d).read s = none

theorem ask_succ (d : Dual) : form.ask (machine host (n + 1)) d =
    Act.publishOnce (form.slot d) (form.initial host (machine host n) d) := by
  cases form <;> rfl

theorem slot_congr (h : e.id = d.id) : (form.slot e).read = (form.slot d).read := by
  cases form with
  | tree =>
      show (fun s : Store => s.trees[e.id]?) = fun s => s.trees[d.id]?
      rw [h]
  | function =>
      show (fun s : Store => s.functions[e.id]?) = fun s => s.functions[d.id]?
      rw [h]

theorem read_write (d e : Dual) (a : form.Result) (s : Store) :
    (form.slot e).read ((form.slot d).write a s) =
      if d.id = e.id then some a else (form.slot e).read s := by
  cases form with
  | tree => exact trees_write d a s e.id
  | function => exact functions_write d a s e.id

theorem unpublished_write {form' : Form} (h : form' ≠ form ∨ e.id ≠ d.id) {b : form'.Result}
    (hs : form.Unpublished d s) : form.Unpublished d ((form'.slot e).write b s) := by
  by_cases hform : form' = form
  · subst hform
    have hid : e.id ≠ d.id := h.resolve_left fun hne => hne rfl
    exact (form'.read_write e d b s).trans ((if_neg hid).trans hs)
  · cases form <;> cases form'
    · exact absurd rfl hform
    · exact hs
    · exact hs
    · exact absurd rfl hform

theorem lasting_published (d : Dual) (a : form.Result) : Lasting (form.Published d a) := by
  cases form with
  | tree => exact lasting_tree d.id a
  | function => exact lasting_function d.id a

theorem stable_slot (d : Dual) (p : Option form.Result → Prop) :
    Stable fun s => p ((form.slot d).read s) := by
  intro s t hs htrees hfunctions _
  cases form with
  | tree =>
      show p t.trees[d.id]?
      rw [htrees]; exact hs
  | function =>
      show p t.functions[d.id]?
      rw [hfunctions]; exact hs

end Form

/-! ## Other ways to compute forms -/

/-- How the forms of duals are computed. -/
abbrev Initialisers := (form : Form) → Engine → Dual → Act form.Result

namespace Initialisers

/-- The way `machine` computes them. -/
def standard (host : Host) : Initialisers := fun form E d => form.initial host E d

/-- One form of one dual is computed by `x` instead. -/
def replace (i : Initialisers) (form : Form) (id : Nat) (x : Engine → Act form.Result) : Initialisers :=
  Function.update i form fun E d => if d.id = id then x E else i form E d

variable {i : Initialisers} {form : Form} {id : Nat} {x : Engine → Act form.Result}

theorem replace_self (h : d.id = id) : i.replace form id x form E d = x E := by
  unfold replace
  rw [Function.update_self]
  exact if_pos h

theorem replace_other {form' : Form} (h : form' ≠ form ∨ d.id ≠ id) :
    i.replace form id x form' E d = i form' E d := by
  unfold replace
  by_cases hform : form' = form
  · subst hform
    rw [Function.update_self]
    exact if_neg (h.resolve_left fun hne => hne rfl)
  · rw [Function.update_of_ne hform]

end Initialisers

/-- The engine that allows `n` nested steps and computes forms like this. -/
def machineWith (host : Host) (i : Initialisers) : Nat → Engine
  | 0 => .exhausted
  | n + 1 =>
      { call := fun f args s => f.apply host (machineWith host i n) args s
        tree := fun d s => Act.publishOnce (.tree d) (i .tree (machineWith host i n) d) s
        function := fun d s => Act.publishOnce (.function d) (i .function (machineWith host i n) d) s
        rewrite := fun pass t s => pass.run (machineWith host i n) t s }

theorem machineWith_standard : ∀ n, machineWith host (.standard host) n = machine host n
  | 0 => rfl
  | n + 1 => by
      unfold machineWith
      rw [machineWith_standard n]
      rfl

/-- **Machines that publish the same forms do the same.** -/
theorem machineWith_concur {i j : Initialisers} (hI : Growing I)
    (hhost : ∀ E E', E.Concur I E' → host.Concur I E E')
    (h : ∀ form E E' d, E.Concur I E' → Concur I (Act.publishOnce (Form.slot form d) (i form E d))
      (Act.publishOnce (form.slot d) (j form E' d))) :
    ∀ n, (machineWith host i n).Concur I (machineWith host j n)
  | 0 => ⟨fun _ _ => .exhausted, fun _ => .exhausted, fun _ => .exhausted, fun _ _ => .exhausted⟩
  | n + 1 => by
      have hE := machineWith_concur hI hhost h n
      exact ⟨fun f args => apply_concur hI (hhost _ _ hE) hE f args, fun d => h .tree _ _ d hE,
        fun d => h .function _ _ d hE, fun pass t => pass_concur hI hE pass t⟩

/-- Host code touches the forms of duals through the engine only. -/
def Host.Steady (host : Host) : Prop :=
  ∀ I, Stable I → ∀ E E', E.Concur I E' → host.Concur I E E'

theorem Host.Steady.keeps (hhost : host.Steady) (hI : Stable I) : host.Keeps I :=
  ⟨fun E hE self name held args => ((hhost I hI E E hE.concur).run self name held args).keeps,
    fun E hE id args => ((hhost I hI E E hE.concur).buildTree id args).keeps,
    fun E hE id args => ((hhost I hI E E hE.concur).buildFunction id args).keeps,
    fun E hE id f => ((hhost I hI E E hE.concur).decompile id f).keeps⟩

theorem Stable.growing (hI : Stable I) : Growing I := fun s hs => hI s _ hs rfl rfl (Nat.le_succ _)

/-- Registered host code is steady: it may log, count attempts and read cells. -/
theorem registry_steady (r : Registry) : r.host.Steady := by
  intro I hI E E' hE
  have hF : Formal I := ⟨fun s _ hs => hI s _ hs rfl rfl (Nat.le_refl _),
    fun s _ hs => hI s _ hs rfl rfl (Nat.le_refl _), fun s _ hs => hI s _ hs rfl rfl (Nat.le_refl _)⟩
  exact registry_concur hI.growing hF hE r

theorem initial_concur (hI : Growing I) (hh : host.Concur I E E') (hE : E.Concur I E')
    (form : Form) (d : Dual) : Concur I (form.initial host E d) (form.initial host E' d) := by
  cases form with
  | tree => exact initialTree_concur hh hE d
  | function => exact initialFunction_concur hI hh hE d

/-- Where a form is published, it does not matter how it is computed. -/
theorem replace_concur (hhost : host.Steady) (form : Form) (d : Dual) (a : form.Result)
    (x : Engine → Act form.Result) (n : Nat) :
    (machineWith host ((Initialisers.standard host).replace form d.id x) n).Concur
      (form.Published d a) (machine host n) := by
  have hstable : Stable (form.Published d a) := form.stable_slot d (· = some a)
  have hlasting := form.lasting_published d a
  rw [← machineWith_standard n]
  refine machineWith_concur hstable.growing (hhost _ hstable) (fun form' E E' e hE => ?_) n
  by_cases hother : form' ≠ form ∨ e.id ≠ d.id
  · rw [Initialisers.replace_other hother]
    refine publishOnce_concur (fun s b hempty hs => ?_)
      (initial_concur hstable.growing (hhost _ hstable E E' hE) hE form' e)
    cases form' with
    | tree => exact hlasting.tree s e b hempty hs
    | function => exact hlasting.function s e b hempty hs
  · obtain ⟨rfl, hid⟩ : form' = form ∧ e.id = d.id := by simpa using hother
    refine publishOnce_unaffected (fun s hs => ⟨a, ?_⟩) _ _
    rw [form'.slot_congr hid]
    exact hs

/-! ## Computing a form without asking for it -/

/-- No call for the form made while it is computed returns it: the outcome is the same where these calls
are answered by something that never returns and publishes nothing. -/
def Form.Alone (host : Host) (form : Form) (n : Nat) (d : Dual) (s : Store) : Prop :=
  ∃ x : Act form.Result, x.Ensures (form.Unpublished d) (fun _ => False) ∧
    form.initial host (machineWith host ((Initialisers.standard host).replace form d.id fun _ => x) n) d s =
      form.initial host (machine host n) d s

/-- A form that cannot be computed is never published. -/
theorem replace_failing_keeps (hhost : host.Steady) (form : Form) (d : Dual) {x : Act form.Result}
    (hx : x.Ensures (form.Unpublished d) fun _ => False) (n : Nat) :
    (machineWith host ((Initialisers.standard host).replace form d.id fun _ => x) n).Keeps
      (form.Unpublished d) := by
  have hstable : Stable (form.Unpublished d) := form.stable_slot d (· = none)
  let i := (Initialisers.standard host).replace form d.id fun _ => x
  suffices h : ∀ form' E E' e, Engine.Concur (form.Unpublished d) E E' →
      Concur (form.Unpublished d) (Act.publishOnce (Form.slot form' e) (i form' E e))
        (Act.publishOnce (form'.slot e) (i form' E' e)) from
    (machineWith_concur hstable.growing (hhost _ hstable) h n).keeps
  intro form' E E' e hE
  by_cases hother : form' ≠ form ∨ e.id ≠ d.id
  · have hi : ∀ E, i form' E e = form'.initial host E e := fun E => Initialisers.replace_other hother
    rw [hi, hi]
    exact publishOnce_concur (fun s b _ hs => form.unpublished_write hother hs)
      (initial_concur hstable.growing (hhost _ hstable E E' hE) hE form' e)
  · obtain ⟨rfl, hid⟩ : form' = form ∧ e.id = d.id := by simpa using hother
    have hi : ∀ E, i form' E e = x := fun E => Initialisers.replace_self hid
    rw [hi, hi]
    refine .refl (publishOnce_ensures hx (fun s a hs ha => ?_) fun _ _ _ _ h => h.elim).keeps
    rw [form'.slot_congr hid, show (form'.slot d).read s = none from hs] at ha
    cases ha

theorem Form.Alone.unpublished (hhost : host.Steady) {form : Form} (h : form.Alone host n d s)
    (hs : form.Unpublished d s) : form.Unpublished d ((form.initial host (machine host n) d).final s) := by
  have hstable : Stable (form.Unpublished d) := form.stable_slot d (· = none)
  obtain ⟨x, hx, h⟩ := h
  have hE := (replace_failing_keeps hhost form d hx n).concur
  have hkeeps := (initial_concur hstable.growing (hhost _ hstable _ _ hE) hE form d).keeps.after s hs
  unfold Act.final at hkeeps ⊢
  rwa [h] at hkeeps

/-! ## Calls of the interface -/

/-- The calls of the interface: making duals and factories, combining, chaining and binding them, asking
for their forms, running them, and evaluating, folding and rewriting trees. Inspection is not among them,
as it does not look at the store. -/
inductive Api (host : Host) : {α : Type} → (Engine → Act α) → Prop
  | form (form : Form) (d : Dual) : Api host fun E => form.ask E d
  | evaluate (d : Dual) (input : Value) : Api host fun E => d.evaluate E input
  | isSatisfiedBy (d : Dual) (input : Value) : Api host fun E => d.isSatisfiedBy E input
  | ofLambda (kind : DualKind) (l : Lam) : Api host fun _ => Dual.ofLambda kind l
  | ofCompiled (kind : DualKind) (source result : Ty) (c : Compiled) :
      Api host fun _ => Dual.ofCompiled kind source result c
  | create (kind : DualKind) (source result : Ty) (origin : Origin) :
      Api host fun _ => Dual.create kind source result origin
  | conjunction (d e : Dual) : Api host fun _ => Dual.conjunction d e
  | disjunction (d e : Dual) : Api host fun _ => Dual.disjunction d e
  | negation (d : Dual) : Api host fun _ => Dual.negation d
  | compose (outer inner : Dual) : Api host fun _ => outer.compose inner
  | applyTo (outer : Dual) (inner : Lam) : Api host fun _ => outer.applyTo inner
  | applyToFunc (outer : Dual) (source : Ty) (inner : Compiled) :
      Api host fun _ => outer.applyToFunc source inner
  | continueWith (inner : Dual) (outer : Lam) : Api host fun _ => inner.continueWith outer
  | continueWithFunc (inner : Dual) (result : Ty) (outer : Compiled) :
      Api host fun _ => inner.continueWithFunc result outer
  | factory (kind : DualKind) (builders : Builders) (next : FormalParam) (second : Option FormalParam)
      (source result : Ty) : Api host fun _ => Factory.create kind builders next second source result
  | bind (k : Factory) (args : List Argument) : Api host fun _ => k.bindArguments args
  | compile (l : Lam) : Api host fun _ => Compiled.ofLambda l
  | accessor (l : Lam) : Api host fun _ => Deferred.ofLambda l
  | compiledTree (c : Compiled) : Api host fun E => c.tree host E
  | call (f : Func) (args : List Value) : Api host fun E => E.call f args
  | value (scope : Scope) (t : Expr) : Api host fun E => DualForm.evaluate E scope t
  | read (m : Member Getter) (target : Option Value) : Api host fun E => m.read E target
  | invoke (m : Method Invoker) (target : Option Value) (args : List Value) :
      Api host fun E => m.invoke E target args
  | tryEvaluate (t : Expr) : Api host fun E => DualForm.tryEvaluate E t
  | evaluateNotNull (t : Expr) : Api host fun E => DualForm.evaluateNotNull E t
  | isFoldable (t : Expr) : Api host fun E => DualForm.isFoldable E t
  | foldDual (kind : DualKind) (t : Expr) : Api host fun E => DualForm.foldDual E kind t
  | rewrite (pass : Pass) (t : Expr) : Api host fun E => pass.run E t
  | rewriteLambda (pass : Pass) (l : Lam) : Api host fun E => pass.runLambda E l
  | lazyValue (id : Nat) (f : Func) : Api host fun E => Act.publishOnce (.value id) (E.call f [])

/-- Calls of the interface lead from one store to another, whether they succeed or fail. Between them the
state of host code may change. -/
inductive Session (host : Host) (s : Store) : Store → Prop
  | start : Session host s s
  | call {α : Type} {y : Engine → Act α} {t : Store} (n : Nat) : Session host s t → Api host y →
      Session host s ((y (machine host n)).final t)
  | between {t u : Store} : Session host s t → u.trees = t.trees → u.functions = t.functions →
      t.nextId ≤ u.nextId → Session host s u

mutual

theorem pass_run_concur (hI : Growing I) (hE : E.Concur I E') : ∀ (pass : Pass) (t : Expr),
    Concur I (pass.run E t) (pass.run E' t)
  | .dual pass, t => pass_concur hI hE pass t
  | .substitute _ _, _ => Concur.pure _
  | .bindArgument _ _, _ => Concur.pure _
  | .node _, _ => Concur.pure _
  | .sequence passes, t => pass_runAll_concur hI hE passes t
  | .pipeline passes verify, t => by
      unfold Pass.run
      refine (pass_runAll_concur hI hE passes t).bind fun u => ?_
      split
      · exact Concur.fail _
      · exact Concur.pure _

theorem pass_runAll_concur (hI : Growing I) (hE : E.Concur I E') : ∀ (passes : List Pass) (t : Expr),
    Concur I (Pass.runAll E passes t) (Pass.runAll E' passes t)
  | [], t => Concur.pure t
  | pass :: rest, t =>
      (pass_run_concur hI hE pass t).bind fun u => pass_runAll_concur hI hE rest u

end

theorem attempt_concur {α : Type} {x y : Act α} (h : Concur I x y) :
    Concur I (Act.attempt x) (Act.attempt y) := by
  refine ⟨fun s hs => ?_, ⟨fun s hs => ?_⟩⟩
  · unfold Act.attempt
    rw [h.same s hs]
  · have hfinal : (Act.attempt x).final s = x.final s := by
      unfold Act.final Act.attempt
      rcases x s with ⟨a, t⟩ | ⟨_ | _, t⟩ <;> rfl
    rw [hfinal]
    exact h.keeps.after s hs

theorem isFoldable_concur (hE : E.Concur I E') (t : Expr) :
    Concur I (isFoldable E t) (isFoldable E' t) := by
  unfold isFoldable
  refine (attempt_concur (tryEvaluate_concur hE t)).bind fun r => ?_
  split
  · exact Concur.pure _
  · exact Concur.pure _

theorem compiled_concur (hI : Growing I) (l : Lam) :
    Concur I (Compiled.ofLambda l) (Compiled.ofLambda l) :=
  (newFunc_concur hI ..).bind fun _ => Concur.pure _

/-- **Every call of the interface does the same on engines that concur.** -/
theorem Api.concur {α : Type} {y : Engine → Act α} (h : Api host y) (hI : Stable I)
    (hh : host.Concur I E E') (hE : E.Concur I E') : Concur I (y E) (y E') := by
  cases h with
  | form form d =>
      cases form with
      | tree => exact hE.tree d
      | function => exact hE.function d
  | evaluate d input => exact evaluate_dual_concur hE d input
  | isSatisfiedBy d input => exact (evaluate_dual_concur hE d input).bind fun v => Concur.lift _
  | ofLambda kind l =>
      refine (Concur.lift _).bind fun p => ?_
      dsimp only
      split
      · exact Concur.fail _
      · exact create_concur hI.growing ..
  | ofCompiled kind source result c =>
      exact (Concur.lift _).bind fun _ => create_concur hI.growing ..
  | create kind source result origin => exact create_concur hI.growing ..
  | conjunction d e => exact conjunction_concur hI.growing d e
  | disjunction d e => exact disjunction_concur hI.growing d e
  | negation d => exact negation_concur hI.growing d
  | compose outer inner =>
      dsimp only [Dual.compose]
      split
      · exact Concur.fail _
      · exact create_concur hI.growing ..
  | applyTo outer inner =>
      exact (Concur.lift _).bind fun p => (compiled_concur hI.growing inner).bind fun c =>
        create_concur hI.growing ..
  | applyToFunc outer source inner =>
      exact (Concur.lift _).bind fun _ => create_concur hI.growing ..
  | continueWith inner outer =>
      exact (Concur.lift _).bind fun _ => (compiled_concur hI.growing outer).bind fun c =>
        create_concur hI.growing ..
  | continueWithFunc inner result outer =>
      exact (Concur.lift _).bind fun _ => create_concur hI.growing ..
  | factory => exact (freshId_concur hI.growing).bind fun id => Concur.pure _
  | bind k args => exact bindArguments_concur hI.growing k args
  | compile l => exact compiled_concur hI.growing l
  | accessor l =>
      dsimp only [Deferred.ofLambda]
      split
      · exact compiled_concur hI.growing l
      · exact Concur.fail _
  | compiledTree c => exact compiled_tree_concur hh c
  | call f args => exact hE.call f args
  | value scope t => exact evaluate_concur hI.growing hE scope t
  | read m target => exact read_concur hE m target
  | invoke m target args => exact invoke_concur hI.growing hE m target args
  | tryEvaluate t => exact tryEvaluate_concur hE t
  | evaluateNotNull t => exact evaluateNotNull_concur hE t
  | isFoldable t => exact isFoldable_concur hE t
  | foldDual kind t => exact foldDual_concur hE kind t
  | rewrite pass t => exact pass_run_concur hI.growing hE pass t
  | rewriteLambda pass l =>
      exact (pass_run_concur hI.growing hE pass l.tree).bind fun t => Concur.lift _
  | lazyValue _ f =>
      refine publishOnce_concur (fun s v _ hs => ?_) (hE.call f [])
      exact hI s _ hs rfl rfl (Nat.le_refl _)

/-- **What is published stays published through every session.** -/
theorem Session.keeps (hhost : host.Steady) (hI : Stable I) (hlasting : Lasting I)
    (h : Session host s t) (hs : I s) : I t := by
  induction h with
  | start => exact hs
  | call n _ hy ih =>
      have hE := (machine_keeps hlasting (hhost.keeps hI) n).concur
      exact (hy.concur hI (hhost I hI _ _ hE) hE).keeps.after _ ih
  | between _ htrees hfunctions hid ih => exact hI _ _ ih htrees hfunctions hid

/-- A form handed out is published. -/
theorem Form.ask_published {form : Form} {a : form.Result} (h : form.ask (machine host n) d s = .ok a t) :
    form.Published d a t := by
  cases n with
  | zero => cases form <;> cases h
  | succ n =>
      rw [form.ask_succ] at h
      rcases publishOnce_ok h with ⟨hread, rfl⟩ | ⟨_, b, v, _, ⟨hread, rfl⟩ | ⟨_, rfl, rfl⟩⟩
      · exact hread
      · exact hread
      · exact (form.read_write d d a v).trans (if_pos rfl)

namespace Flaky

/-- A parameter. -/
def p : Param := ⟨0, "x", .int⟩

/-- `x => x`. -/
def same : Lam := ⟨[p], .param p⟩

/-- A builder that fails the first time it is run. -/
def registry : Registry := ⟨#[.flaky 7 1 (.recipe (.lambda [.known p] (.done (.param p))))], #[], #[]⟩

/-- A projection whose tree comes from this builder. -/
def dual : Dual := ⟨1, .projection, .int, .int, .hosted 0 0 false⟩

/-- One attempt has been made. -/
def tried : Store := { Store.initial with attempts := Store.initial.attempts.insert 7 1 }

end Flaky

end DualForm
