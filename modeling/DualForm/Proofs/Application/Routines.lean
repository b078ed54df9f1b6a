import DualForm.Proofs.Application.Machines
import DualForm.Proofs.Laziness.Machines

/-!
# Registered routines in two runs

* `Routine.contract` — the contract under which registered routines without state may be run, and no builders.

Principal result: `registry_impartial` — registered routines that neither read cells nor count attempts do the
same in two runs.
-/

namespace DualForm

open Value (Coupled AllCoupled)

variable {host : Host} {C : Contract} {U : View → Prop} {S : Regime} {E : Engine} {W : Tandem} {v w : Value}
  {vs ws : List Value} {f g : Func}

/-- Routines without state, and no builders. -/
def Routine.contract : Contract := ⟨Routine.Stateless, fun _ => False, fun _ => False⟩

theorem increment_coupled (h : W.Sound C U) (hv : Coupled W.pairs v w) :
    ExceptRelated (Coupled W.pairs) (Routine.increment v) (Routine.increment w) := by
  have hty := h.faithful.ty_eq hv
  cases hv with
  | scalar hs => cases v <;> first | exact .ok (.scalar rfl) | exact .error _
  | list | record | func | dual | factory =>
      unfold Routine.increment
      dsimp only
      rw [hty]
      exact .error _

theorem length_coupled (hv : Coupled W.pairs v w) :
    Coupled W.pairs (Routine.length v) (Routine.length w) := by
  cases hv with
  | scalar => cases v <;> exact .scalar rfl
  | list | record | func | dual | factory => exact .scalar rfl

theorem Routine.Takes.coupled {held held' args args' : List Value} {name : String}
    (hheld : AllCoupled W.pairs held held') (hargs : AllCoupled W.pairs args args')
    (h : Routine.Takes name held' args') : Routine.Takes name held args := by
  cases h with
  | id | len | inc =>
      rcases hargs with _ | ⟨_, _ | _⟩
      constructor
  | pack => constructor
  | const =>
      rcases hheld with _ | ⟨_, _ | _⟩
      constructor
  | arg | fail | cell =>
      rcases hheld with _ | ⟨⟨_⟩, _ | _⟩
      constructor
  | apply =>
      rcases hargs with _ | ⟨_, _ | ⟨_, _ | _⟩⟩
      constructor
  | flaky | trace =>
      rcases hheld with _ | ⟨⟨_⟩, _ | ⟨_ | _, _ | _⟩⟩
      all_goals constructor

theorem logLine_echoes (hS : S.Durable C U) (line : String) :
    Echoes host C U S (fun _ => Eq) E W (fun _ => Act.logLine line) fun _ => Act.logLine line :=
  idle_echoes hS (s := { W.left with log := W.left.log.push line })
    (t := { W.right with log := W.right.log.push line }) (fun _ => rfl) (fun _ => rfl) ⟨rfl, Nat.le_refl _⟩
    ⟨rfl, Nat.le_refl _⟩ rfl

/-- A function is called, anything else refused. -/
theorem application_echoes (hE : E.Echoes host C U S) {held held' : List Value} {x y : Value}
    (self self' : Nat) (hv : Coupled W.pairs v w) (hx : Coupled W.pairs x y) :
    Echoes host C U S Coupled E W (fun E => Routine.run E self "apply" held [v, x])
      fun E => Routine.run E self' "apply" held' [w, y] := by
  refine .assuming fun hW => ?_
  have hother : (∀ f, v ≠ .func f) → (∀ f, w ≠ .func f) →
      Echoes host C U S Coupled E W (fun E => Routine.run E self "apply" held [v, x])
        fun E => Routine.run E self' "apply" held' [w, y] := fun hnv hnw => by
    simp only [Routine.run_apply hnv, Routine.run_apply hnw, hW.faithful.ty_eq hv]
    exact .fail _
  cases hv with
  | func hf => exact hE.call hf (.cons hx .nil)
  | scalar hs =>
      have hnv : ∀ f, v ≠ .func f := fun f h => by rw [h] at hs; exact absurd hs Bool.false_ne_true
      exact hother hnv hnv
  | list | record | dual | factory => exact hother nofun nofun

/-- A line is written first. -/
theorem trace_echoes (hS : S.Durable C U) (hE : E.Echoes host C U S) (label : String) (self self' : Nat)
    (hf : W.pairs (.func f) (.func g)) (hvs : AllCoupled W.pairs vs ws) :
    Echoes host C U S Coupled E W (fun E => Routine.run E self "trace" [.str label, .func f] vs)
      fun E => Routine.run E self' "trace" [.str label, .func g] ws := by
  refine .assuming fun hW => ?_
  show Echoes host C U S Coupled E W
    (fun E => Act.logLine (label ++ "(" ++ ", ".intercalate (Value.texts vs) ++ ")") >>= fun _ => E.call f vs)
    fun E => Act.logLine (label ++ "(" ++ ", ".intercalate (Value.texts ws) ++ ")") >>= fun _ => E.call g ws
  rw [hW.faithful.texts_eq hvs]
  exact (logLine_echoes hS _).bind (fun _ => hE.keeps.call _ _) fun _ hle _ _ _ =>
    hE.call (hle.pairs _ _ hf) (hle.values hvs)

theorem routine_echoes (hS : S.Durable C U) (hE : E.Echoes host C U S) {name : String}
    (hname : Routine.Stateless name) {held held' args args' : List Value} (self self' : Nat)
    (hheld : AllCoupled W.pairs held held') (hargs : AllCoupled W.pairs args args') :
    Echoes host C U S Coupled E W (fun E => Routine.run E self name held args)
      fun E => Routine.run E self' name held' args' := by
  by_cases htakes : Routine.Takes name held args
  · cases htakes with
    | id =>
        rcases hargs with _ | ⟨hx, _ | _⟩
        exact .pure hx
    | len =>
        rcases hargs with _ | ⟨hx, _ | _⟩
        exact .pure (length_coupled hx)
    | inc =>
        rcases hargs with _ | ⟨hx, _ | _⟩
        exact .assuming fun hW => .lift (increment_coupled hW hx)
    | pack => exact .pure (.list hargs)
    | arg =>
        rcases hheld with _ | ⟨⟨_⟩, _ | _⟩
        exact .pure (hargs.getD rfl _)
    | const =>
        rcases hheld with _ | ⟨hv, _ | _⟩
        exact .pure hv
    | fail =>
        rcases hheld with _ | ⟨⟨_⟩, _ | _⟩
        exact .fail _
    | apply =>
        rcases hargs with _ | ⟨hv, _ | ⟨hx, _ | _⟩⟩
        exact application_echoes hE self self' hv hx
    | cell => exact absurd rfl hname.1
    | flaky => exact absurd rfl hname.2
    | trace label f =>
        rcases hheld with _ | ⟨⟨_⟩, _ | ⟨hf, _ | _⟩⟩
        cases hf with
        | scalar hs => exact absurd hs Bool.false_ne_true
        | func hf => exact trace_echoes hS hE label self self' hf hargs
  · have htakes' : ¬ Routine.Takes name held' args' := fun h => htakes (h.coupled hheld hargs)
    simp only [Routine.run_refused htakes, Routine.run_refused htakes']
    exact .fail _

/-- **Registered routines that neither read cells nor count attempts** do the same in two runs. -/
theorem registry_impartial (r : Registry) : r.host.Impartial Routine.contract where
  keeps _ hI hF := registry_keeps hI hF r
  run self self' hS hE hname hheld hargs := routine_echoes hS hE hname self self' hheld hargs
  buildTree _ _ hbuild := hbuild.elim
  buildFunction _ _ hbuild := hbuild.elim

end DualForm
