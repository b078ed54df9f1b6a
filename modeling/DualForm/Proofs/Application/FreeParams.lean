import DualForm.Proofs.Application.Frames
import DualForm.Proofs.Application.Substitution

/-!
# Evaluation reads free parameters only

Two scopes that agree on the free parameters of a tree may differ in all other bindings, and functions made in
the evaluation keep these other bindings in their scopes. They do not show: the functions have the same outcomes
on all arguments.

Principal result: `evaluate_freeParams` — the evaluations of a tree in two such scopes have the same outcome, and
where its free parameters are bound, none of its parameter nodes is ever reported as unbound.
-/

namespace DualForm

open Value (Coupled)

variable {host : Host} {C : Contract} {K : Object → Prop} {t₀ : Store} {e : Expr} {σ ρ : Scope}

/-- Scopes that agree on the parameters, and bind them to values made of objects with `K`. -/
theorem Scope.Coupled.of_agree {ps : List Param} (hagree : ∀ p ∈ ps, σ.lookup? p = ρ.lookup? p)
    (hfrom : ∀ p ∈ ps, ∀ v, σ.lookup? p = some v → v.From K) :
    Scope.Coupled (.diagonal K) (.among ps) σ ρ := by
  rintro p _ ⟨rfl, hp⟩
  rw [← hagree p hp]
  cases hlookup : σ.lookup? p with
  | none => exact .none rfl
  | some v => exact .some (hfrom p hp v hlookup)

theorem Scope.Binds.of_agree {ps : List Param} (hagree : ∀ p ∈ ps, σ.lookup? p = ρ.lookup? p)
    (h : σ.Binds ps) : ρ.Binds ps := fun p hp => hagree p hp ▸ h p hp

/-- **Evaluation depends on free parameters only.** In scopes that agree on the free parameters of a tree, its
evaluations have the same outcome, up to functions that cannot be told apart. If its free parameters are bound,
no parameter node of the tree is reported, now or when functions made in the evaluation are called. -/
theorem evaluate_freeParams (hhost : host.Impartial C) (hK : Resides C K t₀) (he : e.From K)
    (hagree : ∀ p ∈ e.freeParams, σ.lookup? p = ρ.lookup? p)
    (hfrom : ∀ p ∈ e.freeParams, ∀ v, σ.lookup? p = some v → v.From K) :
    (∃ B, Bisimulation host B ∧ B ⟨t₀, t₀, .diagonal K⟩ ∧
      SameOutcome host B Coupled ⟨t₀, t₀, .diagonal K⟩ (fun E => evaluate E σ e) fun E => evaluate E ρ e) ∧
    (σ.Binds e.freeParams → Unreported host σ e ∧ Unreported host ρ e) := by
  have hflip := Untouched.seen .right .left
  have hE := machine_beside hhost K t₀
  have hread : ∀ n, Readable host C Untouched (together K t₀) (machine host n) :=
    fun _ => readable_untouched
  have hW : Along C Untouched K t₀ ⟨t₀, t₀, .diagonal K⟩ := ⟨hK, together_self K t₀⟩
  refine ⟨⟨Along C Untouched K t₀, along_bisimulation .plain hflip hE hread, hW, ?_⟩, fun hσ => ?_⟩
  · exact evaluate_same .plain hflip hE hread .plain trivial trivial hW (.of_agree hagree hfrom) he.among
  · exact ⟨hσ.unreported, (hσ.of_agree hagree).unreported⟩

namespace Incremented

/-- `y => g(y + p)` -/
def shiftCall : Expr := .lambda [y] (.invoke (.param g) [.operation .add (.param y) (.param p)])

/-- `g` and `p` bound. -/
def before : Scope := [(g, .func inc), (p, .int 2)]

/-- They are bound to the same below and above other bindings. -/
def after : Scope := [(y, .str "y"), (p, .int 2), (g, .func inc), (p, .int 7)]

theorem shiftCall_from : shiftCall.From made :=
  .lambda rfl (fun _ _ => trivial) (fun _ _ => trivial)
    (.invoke (.param (.inr ⟨by decide, by decide, rfl⟩))
      (.cons (.binary .add (.param (.inl ⟨rfl, rfl⟩)) (.param (.inr ⟨by decide, by decide, rfl⟩)) .none) .nil))

theorem shiftCall_free {q : Param} (hq : q ∈ shiftCall.freeParams) : q = g ∨ q = p := by
  have hfree : shiftCall.freeParams = [g, p] := rfl
  rw [hfree] at hq
  simpa using hq

end Incremented

/-- `y => g(y + p)` where `y` is bound outside, too. -/
theorem evaluate_freeParams_incremented :
    (∃ B, Bisimulation Registry.empty.host B ∧
      B ⟨Incremented.store, Incremented.store, .diagonal Incremented.made⟩ ∧
      SameOutcome Registry.empty.host B Coupled
        ⟨Incremented.store, Incremented.store, .diagonal Incremented.made⟩
        (fun E => evaluate E Incremented.before Incremented.shiftCall)
        fun E => evaluate E Incremented.after Incremented.shiftCall) ∧
    Unreported Registry.empty.host Incremented.before Incremented.shiftCall ∧
    Unreported Registry.empty.host Incremented.after Incremented.shiftCall := by
  have hagree : ∀ q ∈ Incremented.shiftCall.freeParams,
      Incremented.before.lookup? q = Incremented.after.lookup? q := fun q hq => by
    rcases Incremented.shiftCall_free hq with rfl | rfl <;> rfl
  have hfrom : ∀ q ∈ Incremented.shiftCall.freeParams, ∀ v,
      Incremented.before.lookup? q = some v → v.From Incremented.made := fun q hq v hv => by
    rcases Incremented.shiftCall_free hq with rfl | rfl
    · cases hv
      exact .func ⟨.inr rfl, rfl⟩
    · cases hv
      exact .scalar rfl
  have hbinds : Scope.Binds Incremented.before Incremented.shiftCall.freeParams := fun q hq => by
    rcases Incremented.shiftCall_free hq with rfl | rfl <;> exact ⟨_, rfl⟩
  obtain ⟨hsame, hreports⟩ := evaluate_freeParams (registry_impartial Registry.empty) Incremented.resides
    Incremented.shiftCall_from hagree hfrom
  exact ⟨hsame, hreports hbinds⟩

end DualForm
