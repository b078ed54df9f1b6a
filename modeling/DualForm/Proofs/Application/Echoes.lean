import DualForm.Proofs.Application.Tandem
import DualForm.Proofs.Ending
import DualForm.Proofs.Host

/-!
# One run beside another

* `Regime` — what is asked of two stores besides, and how far the run on the left is followed.
* `Echoes host C U S R E W x y` — what `x` does on the engine `E` from the left store of `W`, it does with
  enough nested steps, and `y` does from the right store: it succeeds with a result `R` relates to that of `x`,
  or fails with the same error, and the stores are those of a later sound tandem in the regime.
* `Engine.Echoes` — so do the answers of `E` to calls and to requests for function forms.
* `Regime.Durable` — the regime allows new objects. `Readable` — trees that a view puts in place of others are
  evaluated alike.

Principal results: one lemma per way of combining actions (`Echoes.bind` and its companions), and
`evaluate_echoes` — the evaluation of coupled trees in coupled scopes.
-/

namespace DualForm

variable {α β γ δ : Type} {host : Host} {C : Contract} {U : View → Prop}

/-- What is asked of two runs. -/
structure Regime where
  inv : Tandem → Prop
  /-- Stores to which the run on the left is not followed. They are never left again. -/
  beyond : Store → Prop
  /-- Errors are followed, too. -/
  strict : Prop

/-- The regime allows both runs to make objects. -/
structure Regime.Durable (C : Contract) (U : View → Prop) (S : Regime) : Prop where
  quiet : ∀ {V W : Tandem}, V.Sound C U → W.Sound C U → V.Later W → V.Quiet W → S.inv V →
    S.beyond W.left ∨ S.inv W
  lasting : Lasting S.beyond
  formal : Formal S.beyond
  plain : U View.plain

/-- The result on the left comes again, and has its counterpart on the right. -/
def Echoed (host : Host) (C : Contract) (U : View → Prop) (S : Regime) (R : Pairing → α → β → Prop)
    (W : Tandem) (x : Engine → Act α) (y : Engine → Act β) : EStateM.Result Stop Store α → Prop
  | .ok a t => S.beyond t ∨ (Ends host x W.left (.ok a t) ∧ ∃ V b, W.Later V ∧ V.Sound C U ∧ S.inv V ∧
      V.left = t ∧ Ends host y W.right (.ok b V.right) ∧ R V.pairs a b)
  | .error (.failed e) t => S.strict → S.beyond t ∨ (Ends host x W.left (.error (.failed e) t) ∧
      ∃ V, W.Later V ∧ V.Sound C U ∧ S.inv V ∧ V.left = t ∧
        Ends host y W.right (.error (.failed e) V.right))
  | .error .exhausted _ => True

/-- What the action on the left does on the engine, the one on the right does, too. -/
def Echoes (host : Host) (C : Contract) (U : View → Prop) (S : Regime) (R : Pairing → α → β → Prop)
    (E : Engine) (W : Tandem) (x : Engine → Act α) (y : Engine → Act β) : Prop :=
  W.Sound C U → S.inv W → Echoed host C U S R W x y (x E W.left)

variable {S : Regime} {E : Engine} {W : Tandem}

namespace Echoes

variable {R : Pairing → α → β → Prop} {Q : Pairing → γ → δ → Prop} {x x' : Engine → Act α}
  {y y' : Engine → Act β}

theorem assuming (h : W.Sound C U → Echoes host C U S R E W x y) : Echoes host C U S R E W x y :=
  fun hW hS => h hW hW hS

theorem pure {a : α} {b : β} (h : R W.pairs a b) :
    Echoes host C U S R E W (fun _ => Pure.pure a) fun _ => Pure.pure b :=
  fun hW hS => .inr ⟨⟨0, fun _ _ => rfl⟩, W, b, .refl W, hW, hS, rfl, ⟨0, fun _ _ => rfl⟩, h⟩

theorem fail (e : Error) : Echoes host C U S R E W (fun _ => Act.fail e) fun _ => Act.fail e :=
  fun hW hS _ => .inr ⟨⟨0, fun _ _ => rfl⟩, W, .refl W, hW, hS, rfl, 0, fun _ _ => rfl⟩

theorem lift {p : Except Error α} {q : Except Error β} (h : ExceptRelated (R W.pairs) p q) :
    Echoes host C U S R E W (fun _ => Act.lift p) fun _ => Act.lift q := by
  cases h with
  | ok hab => exact pure hab
  | error e => exact fail e

theorem bind {f : Engine → α → Act γ} {g : Engine → β → Act δ} (h : Echoes host C U S R E W x y)
    (hkeeps : ∀ a, (f E a).Keeps S.beyond)
    (hf : ∀ V, W.Later V → ∀ a b, R V.pairs a b →
      Echoes host C U S Q E V (fun E => f E a) fun E => g E b) :
    Echoes host C U S Q E W (fun E => x E >>= f E) fun E => y E >>= g E := by
  intro hW hS
  have hx := h hW hS
  show Echoed host C U S Q W _ _ ((x E >>= f E) W.left)
  cases hleft : x E W.left with
  | error e t =>
      rw [Act.bind_error hleft]
      rw [hleft] at hx
      cases e with
      | exhausted => trivial
      | failed e =>
          intro hstrict
          rcases hx hstrict with hbeyond | ⟨hl, V, hle, hV, hSV, hVl, hr⟩
          · exact .inl hbeyond
          · exact .inr ⟨hl.bind_error, V, hle, hV, hSV, hVl, hr.bind_error⟩
  | ok a t =>
      rw [Act.bind_ok hleft]
      rw [hleft] at hx
      rcases hx with hbeyond | ⟨hl, V, b, hle, hV, hSV, rfl, hr, hab⟩
      · have hafter := (hkeeps a).after t hbeyond
        cases hnext : f E a t with
        | error e u =>
            rw [Act.final_error hnext] at hafter
            cases e with
            | exhausted => trivial
            | failed e => exact fun _ => .inl hafter
        | ok c u =>
            rw [Act.final_ok hnext] at hafter
            exact .inl hafter
      · have hfa := hf V hle a b hab hV hSV
        dsimp only at hfa
        cases hnext : f E a V.left with
        | error e u =>
            rw [hnext] at hfa
            cases e with
            | exhausted => trivial
            | failed e =>
                intro hstrict
                rcases hfa hstrict with hbeyond | ⟨hl', X, hle', hX, hSX, hXl, hr'⟩
                · exact .inl hbeyond
                · exact .inr ⟨hl.bind_ok hl', X, hle.trans hle', hX, hSX, hXl, hr.bind_ok hr'⟩
        | ok c u =>
            rw [hnext] at hfa
            rcases hfa with hbeyond | ⟨hl', X, d, hle', hX, hSX, hXl, hr', hcd⟩
            · exact .inl hbeyond
            · exact .inr ⟨hl.bind_ok hl', X, d, hle.trans hle', hX, hSX, hXl, hr.bind_ok hr', hcd⟩

/-- An answer of the machine echoes like the step it takes. -/
theorem step {n : Nat} (h : Echoes host C U S R (machine host n) W x' y')
    (hx : ∀ n, x (machine host (n + 1)) = x' (machine host n))
    (hy : ∀ n, y (machine host (n + 1)) = y' (machine host n)) :
    Echoes host C U S R (machine host (n + 1)) W x y := by
  intro hW hS
  have hstep := h hW hS
  rw [hx n]
  cases hleft : x' (machine host n) W.left with
  | error e t =>
      rw [hleft] at hstep
      cases e with
      | exhausted => trivial
      | failed e =>
          intro hstrict
          rcases hstep hstrict with hbeyond | ⟨hl, V, hle, hV, hSV, hVl, hr⟩
          · exact .inl hbeyond
          · exact .inr ⟨hl.step hx, V, hle, hV, hSV, hVl, hr.step hy⟩
  | ok a t =>
      rw [hleft] at hstep
      rcases hstep with hbeyond | ⟨hl, V, b, hle, hV, hSV, hVl, hr, hab⟩
      · exact .inl hbeyond
      · exact .inr ⟨hl.step hx, V, b, hle, hV, hSV, hVl, hr.step hy, hab⟩

end Echoes

/-- Functions that stand for each other. -/
abbrev FuncPaired (P : Pairing) (f g : Func) : Prop := P (.func f) (.func g)

/-- Duals that stand for each other. -/
abbrev DualPaired (P : Pairing) (d e : Dual) : Prop := P (.dual d) (.dual e)

/-- The answers of the engine to calls and to requests for function forms echo. -/
structure Engine.Echoes (host : Host) (C : Contract) (U : View → Prop) (S : Regime) (E : Engine) : Prop where
  keeps : E.Keeps S.beyond
  call : ∀ {W : Tandem} {f g : Func} {vs ws : List Value}, W.pairs (.func f) (.func g) →
    Value.AllCoupled W.pairs vs ws →
    DualForm.Echoes host C U S Value.Coupled E W (fun E => E.call f vs) fun E => E.call g ws
  function : ∀ {W : Tandem} {d e : Dual}, W.pairs (.dual d) (.dual e) →
    DualForm.Echoes host C U S FuncPaired E W (fun E => E.function d) fun E => E.function e

/-- Trees that a view puts in place of others are evaluated alike where it holds. -/
def Readable (host : Host) (C : Contract) (U : View → Prop) (S : Regime) (E : Engine) : Prop :=
  ∀ {V : View} {W : Tandem} {t u : Expr} {σ ρ : Scope}, U V → V.replaces t u → V.holds .left σ →
    V.holds .right ρ →
    Echoes host C U S Value.Coupled E W (fun E => evaluate E σ t) fun E => evaluate E ρ u

theorem readable_untouched : Readable host C Untouched S E := by
  rintro V W t u σ ρ rfl htu
  exact htu.elim

/-! ## New objects -/

variable (hS : S.Durable C U)

include hS

/-- Both runs go on, and publish nothing. -/
theorem idle_echoes {x : Engine → Act α} {y : Engine → Act β} {R : Pairing → α → β → Prop} {a : α} {b : β}
    {s t : Store} (hx : ∀ E, x E W.left = .ok a s) (hy : ∀ E, y E W.right = .ok b t)
    (hs : s.functions = W.left.functions ∧ W.left.nextId ≤ s.nextId)
    (ht : t.functions = W.right.functions ∧ W.right.nextId ≤ t.nextId) (hab : R W.pairs a b) :
    Echoes host C U S R E W x y := by
  intro hW hSW
  obtain ⟨hV, hle, hquiet⟩ := hW.idle hs.1 ht.1 hs.2 ht.2
  rw [hx E]
  rcases hS.quiet hW hV hle hquiet hSW with hbeyond | hSV
  · exact .inl hbeyond
  · exact .inr ⟨⟨0, fun _ _ => hx _⟩, _, b, hle, hV, hSV, rfl, ⟨0, fun _ _ => hy _⟩, hab⟩

/-- **Both runs give out an identity** for objects that may stand for each other. -/
theorem freshId_echoes {x y : Nat → Object} (hx : ∀ i, (x i).id = i) (hy : ∀ i, (y i).id = i)
    (hxy : ∀ i j, Object.Coupled C U W.pairs (x i) (y j)) :
    Echoes host C U S (fun P i j => P (x i) (y j)) E W (fun _ => Act.freshId) fun _ => Act.freshId := by
  intro hW hSW
  obtain ⟨hV, hle, hquiet⟩ := hW.add (s := { W.left with nextId := W.left.nextId + 1 })
    (t := { W.right with nextId := W.right.nextId + 1 }) rfl rfl
    ⟨Nat.le_of_eq (hx _).symm, by rw [hx]; exact Nat.lt_succ_self _⟩
    ⟨Nat.le_of_eq (hy _).symm, by rw [hy]; exact Nat.lt_succ_self _⟩
    (hxy W.left.nextId W.right.nextId)
  show Echoed host C U S _ W _ _ (.ok W.left.nextId { W.left with nextId := W.left.nextId + 1 })
  rcases hS.quiet hW hV hle hquiet hSW with hbeyond | hSV
  · exact .inl hbeyond
  · exact .inr ⟨⟨0, fun _ _ => rfl⟩, _, W.right.nextId, hle, hV, hSV, rfl, ⟨0, fun _ _ => rfl⟩,
      .inr ⟨rfl, rfl⟩⟩

theorem newFunc_echoes {n : Nat} {c c' : Code} (hc : Code.Coupled C U W.pairs n c c') :
    Echoes host C U S FuncPaired E W (fun _ => Act.newFunc n c) fun _ => Act.newFunc n c' :=
  (freshId_echoes hS (x := fun i => .func ⟨i, n, c⟩) (y := fun i => .func ⟨i, n, c'⟩) (fun _ => rfl)
    (fun _ => rfl) fun _ _ => .func ⟨rfl, hc⟩).bind (fun _ => .pure _) fun _ _ _ _ hij => .pure hij

theorem create_echoes (kind : DualKind) (source result : Ty) {o o' : Origin}
    (ho : Origin.Coupled C U W.pairs o o') :
    Echoes host C U S DualPaired E W (fun _ => Dual.create kind source result o)
      fun _ => Dual.create kind source result o' :=
  (freshId_echoes hS (x := fun i => .dual ⟨i, kind, source, result, o⟩)
    (y := fun i => .dual ⟨i, kind, source, result, o'⟩) (fun _ => rfl) (fun _ => rfl)
    fun _ _ => .dual ⟨rfl, rfl, rfl, ho⟩).bind (fun _ => .pure _) fun _ _ _ _ hij => .pure hij

omit hS

end DualForm
