import DualForm.Proofs.Application.Reading
import DualForm.Proofs.Application.Routines

/-!
# Substitution is application

* `SameOutcome host B R W x y` — from the stores of `W`, `x` and `y` both return, with results related by `R`,
  both fail with the same error, or both diverge; where they end, the stores they leave are again those of a
  tandem with `B`, in which no object has lost its counterpart.
* `Bisimulation host B` — in tandems with `B`, objects stand for each other one to one and show the same,
  functions and duals that stand for each other have the same outcomes on all arguments, and so has every tree
  over them.

Principal results: `substitute_application` — evaluating a substituted tree has the same outcome as evaluating
the tree with the parameter bound, if the replacement has a value made of old objects; `substitute_apart` — it
need not have if evaluating the replacement makes an object.
-/

namespace DualForm

open Value (Coupled AllCoupled)

variable {α β : Type} {host : Host} {C : Contract} {U : View → Prop} {K : Object → Prop} {W : Tandem}
  {t t₀ t₁ : Store} {σ ρ : Scope}

/-! ## Outcomes -/

/-- However many nested steps are allowed, the action does not end. -/
def Diverges (host : Host) (x : Engine → Act α) (s : Store) : Prop :=
  ∀ n, ∃ t, x (machine host n) s = .error .exhausted t

theorem Diverges.exhausted {x : Engine → Act α} {s : Store} {r : EStateM.Result Stop Store α}
    (h : Diverges host x s) (hr : Ends host x s r) : ∃ t, r = .error .exhausted t := by
  obtain ⟨N, hN⟩ := hr
  obtain ⟨t, ht⟩ := h N
  exact ⟨t, (hN N (Nat.le_refl N)).symm.trans ht⟩

/-- The same outcome, from two stores. -/
inductive SameOutcome (host : Host) (B : Tandem → Prop) (R : Pairing → α → β → Prop) (W : Tandem)
    (x : Engine → Act α) (y : Engine → Act β) : Prop
  | returned {V : Tandem} {a : α} {b : β} : B V → (∀ x y, W.pairs x y → V.pairs x y) →
      Ends host x W.left (.ok a V.left) → Ends host y W.right (.ok b V.right) → R V.pairs a b →
      SameOutcome host B R W x y
  | failed {V : Tandem} (e : Error) : B V → (∀ x y, W.pairs x y → V.pairs x y) →
      Ends host x W.left (.error (.failed e) V.left) → Ends host y W.right (.error (.failed e) V.right) →
      SameOutcome host B R W x y
  | diverged : Diverges host x W.left → Diverges host y W.right → SameOutcome host B R W x y

/-- What stands for each other cannot be told apart. -/
structure Bisimulation (host : Host) (B : Tandem → Prop) : Prop where
  faithful : ∀ {W : Tandem}, B W → W.pairs.Faithful
  call : ∀ {W : Tandem} {f g : Func} {vs ws : List Value}, B W → W.pairs (.func f) (.func g) →
    AllCoupled W.pairs vs ws → SameOutcome host B Coupled W (fun E => E.call f vs) fun E => E.call g ws
  function : ∀ {W : Tandem} {d e : Dual}, B W → W.pairs (.dual d) (.dual e) →
    SameOutcome host B FuncPaired W (fun E => E.function d) fun E => E.function e
  evaluate : ∀ {W : Tandem} {Γ : Correspondence} {σ ρ : Scope} {t u : Expr}, B W →
    Scope.Coupled W.pairs Γ σ ρ → Tree.Coupled W.pairs .plain Γ t u →
    SameOutcome host B Coupled W (fun E => evaluate E σ t) fun E => evaluate E ρ u

namespace SameOutcome

variable {B : Tandem → Prop} {R : Pairing → α → β → Prop} {x : Engine → Act α} {y : Engine → Act β}
  {x' y' : Engine → Act Value}

/-- The one diverges exactly if the other one does. -/
theorem diverges_iff (h : SameOutcome host B R W x y) :
    Diverges host x W.left ↔ Diverges host y W.right := by
  cases h with
  | returned _ _ hx hy _ =>
      exact ⟨fun h => absurd (h.exhausted hx) nofun, fun h => absurd (h.exhausted hy) nofun⟩
  | failed e _ _ hx hy =>
      exact ⟨fun h => absurd (h.exhausted hx) nofun, fun h => absurd (h.exhausted hy) nofun⟩
  | diverged hx hy => exact ⟨fun _ => hy, fun _ => hx⟩

/-- The one fails with an error exactly if the other one does. -/
theorem error_iff (h : SameOutcome host B R W x y) (e : Error) :
    (∃ s, Ends host x W.left (.error (.failed e) s)) ↔ ∃ s, Ends host y W.right (.error (.failed e) s) := by
  cases h with
  | returned _ _ hx hy _ =>
      exact ⟨fun ⟨_, h⟩ => absurd (h.unique hx) nofun, fun ⟨_, h⟩ => absurd (h.unique hy) nofun⟩
  | failed e' _ _ hx hy =>
      refine ⟨fun ⟨_, h⟩ => ?_, fun ⟨_, h⟩ => ?_⟩
      · cases h.unique hx
        exact ⟨_, hy⟩
      · cases h.unique hy
        exact ⟨_, hx⟩
  | diverged hx hy =>
      exact ⟨fun ⟨_, h⟩ => absurd (hx.exhausted h) nofun, fun ⟨_, h⟩ => absurd (hy.exhausted h) nofun⟩

/-- The one returns a value without parts and identity exactly if the other one does. -/
theorem scalar_iff (h : SameOutcome host B Coupled W x' y') {v : Value} (hv : v.isScalar = true) :
    (∃ s, Ends host x' W.left (.ok v s)) ↔ ∃ s, Ends host y' W.right (.ok v s) := by
  cases h with
  | returned _ _ hx hy hab =>
      refine ⟨fun ⟨_, h⟩ => ?_, fun ⟨_, h⟩ => ?_⟩
      · cases h.unique hx
        exact ⟨_, hab.eq_of_scalar (.inl hv) ▸ hy⟩
      · cases h.unique hy
        exact ⟨_, (hab.eq_of_scalar (.inr hv)).symm ▸ hx⟩
  | failed e _ _ hx hy =>
      exact ⟨fun ⟨_, h⟩ => absurd (h.unique hx) nofun, fun ⟨_, h⟩ => absurd (h.unique hy) nofun⟩
  | diverged hx hy =>
      exact ⟨fun ⟨_, h⟩ => absurd (hx.exhausted h) nofun, fun ⟨_, h⟩ => absurd (hy.exhausted h) nofun⟩

end SameOutcome

/-- The sound tandems of runs that publish function forms together. -/
def Along (C : Contract) (U : View → Prop) (K : Object → Prop) (t : Store) (W : Tandem) : Prop :=
  W.Sound C U ∧ (together K t).inv W

/-- The two runs exchanged. -/
theorem Along.flip (hU : ∀ V, U V → U (V.seen .right .left)) (h : Along C U K t W) :
    Along C U K t (W.seen .right .left) := by
  obtain ⟨hW, hstep, hK, hl, hr⟩ := h
  have hseen := hW.seen .right .left hU fun hde hk => hstep hde hk
  refine ⟨hseen, ?_, fun x hx => ⟨x, x, hK x hx, rfl, rfl⟩, hr, hl⟩
  rintro d e g ⟨z, w, hzw, hd, he⟩ hg
  obtain rfl : w = .dual d := hd
  obtain rfl : z = .dual e := he
  obtain ⟨f, hf, -⟩ := hW.forms hzw hg
  exact ⟨f, hf⟩

/-- **What echoes in both directions has the same outcome.** -/
theorem SameOutcome.of_echoes {R : Pairing → α → β → Prop} {Q : Pairing → β → α → Prop} {x : Engine → Act α}
    {y : Engine → Act β} (hU : ∀ V, U V → U (V.seen .right .left)) (hW : Along C U K t W)
    (hleft : ∀ n, Echoes host C U (together K t) R (machine host n) W x y)
    (hright : ∀ n, Echoes host C U (together K t) Q (machine host n) (W.seen .right .left) y x)
    (hQ : ∀ (V : Tandem) a b, Q V.pairs b a → R (V.seen .right .left).pairs a b) :
    SameOutcome host (Along C U K t) R W x y := by
  have hback : ∀ {V : Tandem}, (W.seen .right .left).Later V →
      ∀ x y, W.pairs x y → (V.seen .right .left).pairs x y :=
    fun hle x y hxy => ⟨y, x, hle.pairs y x ⟨x, y, hxy, rfl, rfl⟩, rfl, rfl⟩
  -- If the left run diverges, the right one decides the outcome, with the two runs seen from the other side.
  by_cases hx : Diverges host x W.left
  · by_cases hy : Diverges host y W.right
    · exact .diverged hx hy
    · obtain ⟨n, hn⟩ := not_forall.1 hy
      obtain ⟨hV, hinv⟩ := hW.flip hU
      have hecho := hright n hV hinv
      change Echoed host C U _ Q _ y x (y (machine host n) W.right) at hecho
      cases hrun : y (machine host n) W.right with
      | ok b s =>
          rw [hrun] at hecho
          obtain ⟨hends, V, a, hle, hV, hinv, rfl, hends', hab⟩ := hecho.resolve_left id
          exact .returned (Along.flip hU ⟨hV, hinv⟩) (hback hle) hends' hends (hQ V a b hab)
      | error e s =>
          cases e with
          | exhausted => exact absurd ⟨s, hrun⟩ hn
          | failed e =>
              rw [hrun] at hecho
              obtain ⟨hends, V, hle, hV, hinv, rfl, hends'⟩ := (hecho trivial).resolve_left id
              exact .failed e (Along.flip hU ⟨hV, hinv⟩) (hback hle) hends' hends
  · obtain ⟨n, hn⟩ := not_forall.1 hx
    have hecho := hleft n hW.1 hW.2
    cases hrun : x (machine host n) W.left with
    | ok a s =>
        rw [hrun] at hecho
        obtain ⟨hends, V, b, hle, hV, hinv, rfl, hends', hab⟩ := hecho.resolve_left id
        exact .returned ⟨hV, hinv⟩ hle.pairs hends hends' hab
    | error e s =>
        cases e with
        | exhausted => exact absurd ⟨s, hrun⟩ hn
        | failed e =>
            rw [hrun] at hecho
            obtain ⟨hends, V, hle, hV, hinv, rfl, hends'⟩ := (hecho trivial).resolve_left id
            exact .failed e ⟨hV, hinv⟩ hle.pairs hends hends'

section Bisimulation

variable (hU : U .plain) (hflip : ∀ V, U V → U (V.seen .right .left))
  (hE : ∀ n, (machine host n).Echoes host C U (together K t))

include hU hflip hE

/-- Trees that are coupled in a view have the same outcome where it holds. -/
theorem evaluate_same (hread : ∀ n, Readable host C U (together K t) (machine host n)) {V : View} (hV : U V)
    (hσ : V.holds .left σ) (hρ : V.holds .right ρ) (hW : Along C U K t W) {Γ : Correspondence} {t₁ t₂ : Expr}
    (hscope : Scope.Coupled W.pairs Γ σ ρ) (ht : Tree.Coupled W.pairs V Γ t₁ t₂) :
    SameOutcome host (Along C U K t) Coupled W (fun E => evaluate E σ t₁) fun E => evaluate E ρ t₂ := by
  have hpairs : ∀ x y, W.pairs x y → (W.seen .right .left).pairs y x := fun x y hxy => ⟨x, y, hxy, rfl, rfl⟩
  have hscope' := Scope.Coupled.seen (a := .right) (b := .left) hpairs hscope
  have ht' : Tree.Coupled _ _ (Γ.seen .right .left) t₂ t₁ :=
    Tree.Coupled.seen (a := .right) (b := .left) hpairs (fun x y hxy => ⟨x, y, hxy, rfl, rfl⟩) ht
  exact .of_echoes hflip hW
    (fun n => evaluate_echoes (together_durable hU) (hE n) hV hσ hρ (fun htu => hread n hV htu hσ hρ)
      (fun _ _ => id) hscope ht)
    (fun n => evaluate_echoes (together_durable hU) (hE n) (hflip V hV) hρ hσ
      (fun htu => hread n (hflip V hV) htu hρ hσ) (fun _ _ => id) hscope' ht')
    fun V a b hab => Coupled.seen (a := .right) (b := .left) (fun x y hxy => ⟨x, y, hxy, rfl, rfl⟩) hab

/-- **Runs that publish function forms together cannot be told apart.** -/
theorem along_bisimulation (hread : ∀ n, Readable host C U (together K t) (machine host n)) :
    Bisimulation host (Along C U K t) where
  faithful hW := hW.1.faithful
  call {W f g vs ws} hW hf hvs := by
    have hpairs : ∀ x y, W.pairs x y → (W.seen .right .left).pairs y x := fun x y hxy => ⟨x, y, hxy, rfl, rfl⟩
    exact .of_echoes hflip hW (fun n => (hE n).call hf hvs)
      (fun n => (hE n).call (hpairs _ _ hf) (AllCoupled.seen (a := .right) (b := .left) hpairs hvs))
      fun V a b hab => Coupled.seen (a := .right) (b := .left) (fun x y hxy => ⟨x, y, hxy, rfl, rfl⟩) hab
  function {W d e} hW hde := .of_echoes hflip hW (fun n => (hE n).function hde)
    (fun n => (hE n).function ⟨_, _, hde, rfl, rfl⟩) fun V f g hfg => ⟨_, _, hfg, rfl, rfl⟩
  evaluate hW hscope ht := evaluate_same hU hflip hE hread hU trivial trivial hW hscope ht

end Bisimulation

/-! ## Substitution -/

/-- **What an evaluation makes resides where it ends,** together with what did before. -/
theorem evaluate_resides (hhost : host.Impartial C) (hK : Resides C K t₀) {r : Expr} {v : Value} {n : Nat}
    (hr : Tree.From K r) (hσ : σ.From K) (hrun : evaluate (machine host n) σ r t₀ = .ok v t₁) :
    ∃ K', (∀ x, K x → K' x) ∧ Resides C K' t₁ ∧ v.From K' := by
  have hecho := evaluate_echoes (W := ⟨t₀, t₀, .diagonal K⟩) (together_durable .plain)
    (machine_beside hhost K t₀ n) .plain trivial trivial False.elim (fun _ _ => id)
    (hσ.among (fun _ _ => rfl) fun _ _ => rfl) hr.among hK (together_self K t₀)
  change Echoed host C Untouched _ _ _ _ _ (evaluate (machine host n) σ r t₀) at hecho
  rw [hrun] at hecho
  obtain ⟨-, V, b, hle, hV, -, rfl, -, hvb⟩ := hecho.resolve_left id
  exact ⟨fun x => ∃ y, V.pairs x y, fun x hx => ⟨x, hle.pairs x x ⟨hx, rfl⟩⟩, .of_left hV,
    Coupled.seen (a := .left) (b := .left) (fun x y hxy => ⟨⟨y, hxy⟩, rfl⟩) hvb⟩

/-- **Substitution is application.** Where the replacement has been evaluated to a value made of old objects,
and no lambda of the tree declares the parameter or one the replacement reads, evaluating the substituted tree
has the same outcome as evaluating the tree with the parameter bound to that value. -/
theorem substitute_application (hhost : host.Impartial C) (hK : Resides C K t₀) {p : Param} {r body : Expr}
    {v : Value} {s : Scope} (hbody : body.From K) (hr : r.From K) (hs : s.From K) (hv : v.From K)
    (hp : body.Undeclared p) (hfree : ∀ q ∈ r.freeParams, body.Undeclared q)
    (hrun : Ends host (fun E => evaluate E s r) t₀ (.ok v t₁)) :
    ∃ B P, Bisimulation host B ∧ B ⟨t₁, t₁, P⟩ ∧ (∀ x, K x → P x x) ∧
      SameOutcome host B Value.Coupled ⟨t₁, t₁, P⟩ (fun E => evaluate E s (Tree.substitute p r body))
        fun E => evaluate E (s.bind p v) body := by
  obtain ⟨n, hn⟩ := hrun
  have hrun : evaluate (machine host n) s r t₀ = .ok v t₁ := hn n (Nat.le_refl n)
  have hrepeats : Repeats host r s v t₁ := fun hL hunspent hσ =>
    evaluate_again hhost hK hr.among (hs.among (fun _ _ => rfl) hσ) hv hrun hL hunspent
  have hE := machine_together hhost (.inl rfl) fun n hE => reading_readable (p := p) hrepeats hr hs hv hE
  have hread : ∀ n, Readable host C (reading p r v s).Around (together K t₁) (machine host n) :=
    fun n => reading_readable hrepeats hr hs hv (hE n)
  obtain ⟨K', hsub, hK', -⟩ := evaluate_resides hhost hK hr hs hrun
  have hW : Along C (reading p r v s).Around K t₁ ⟨t₁, t₁, .diagonal K'⟩ :=
    ⟨hK'.views fun V hV => .inl hV, (together_self K' t₁).1, fun x hx => ⟨hsub x hx, rfl⟩, .refl _, .refl _⟩
  have hdiagonal : ∀ x y, Pairing.diagonal K x y → Pairing.diagonal K' x y :=
    fun x _ hxy => ⟨hsub x hxy.1, hxy.2⟩
  have hclear := Tree.Admits.of_undeclared hp hfree
  have hcoupled : Tree.Coupled (.diagonal K') (reading p r v s) (fun x y => x ≠ p ∧ x = y)
      (Tree.substitute p r body) body :=
    (Tree.Coupled.substitute (V := reading p r v s) ⟨rfl, rfl⟩ (fun _ hq => hq) hbody hclear hclear
      fun x y hxy => by
        subst hxy
        exact (em (x = p)).imp (fun h => ⟨h, h⟩) fun h => ⟨h, h, rfl⟩).mono hdiagonal
  have hscope : Scope.Coupled (.diagonal K') (fun x y => x ≠ p ∧ x = y) s (s.bind p v) := by
    rintro x _ ⟨hx, rfl⟩
    unfold Scope.bind
    rw [Scope.lookup?_cons, if_neg hx]
    cases hlookup : s.lookup? x with
    | none => exact .none rfl
    | some w => exact .some (Coupled.mono (P := .diagonal K) hdiagonal (hs x w hlookup))
  have hholds : (reading p r v s).holds .right (s.bind p v) := by
    show Scope.lookup? _ p = some v
    unfold Scope.bind
    rw [Scope.lookup?_cons, if_pos rfl]
  refine ⟨Along C (reading p r v s).Around K t₁, .diagonal K', ?_, hW, fun x hx => ⟨hsub x hx, rfl⟩, ?_⟩
  · exact along_bisimulation (.inl rfl) (View.Around.seen _ _) hE hread
  · exact evaluate_same (.inl rfl) (View.Around.seen _ _) hE hread (.self _) (fun _ _ => rfl) hholds hW
      hscope hcoupled

namespace Incremented

def g : Param := ⟨0, "g", .func [.int] .int⟩

def p : Param := ⟨1, "p", .int⟩

def y : Param := ⟨2, "y", .int⟩

def inc : Func := ⟨0, 1, .host "inc" []⟩

/-- `g(1)` -/
def call : Expr := .invoke (.param g) [.literal (.int 1) .int]

/-- `y => y + p` -/
def shift : Expr := .lambda [y] (.operation .add (.param y) (.param p))

def scope : Scope := [(g, .func inc)]

def store : Store := { Store.initial with nextId := 1 }

/-- The one object made so far. -/
def made (x : Object) : Prop := False ∨ x = .func inc

theorem resides : Resides Routine.contract made store :=
  .make .initial (x := .func inc) (.func ⟨rfl, .host ⟨by decide, by decide⟩ .nil⟩) rfl

theorem shift_from : shift.From made :=
  .lambda rfl (fun _ _ => trivial) (fun _ _ => trivial)
    (.binary .add (.param (.inl ⟨rfl, rfl⟩)) (.param (.inr ⟨by decide, by decide, rfl⟩)) .none)

theorem call_from : call.From made := .invoke (.param rfl) (.cons (.literal .int (.scalar rfl)) .nil)

theorem scope_from : scope.From made := by
  intro q w hw
  unfold scope at hw
  rw [Scope.lookup?_cons] at hw
  split at hw
  · cases hw
    exact .func ⟨.inr rfl, rfl⟩
  · cases hw

theorem shift_undeclared {q : Param} (hq : q ≠ y) : shift.Undeclared q := by
  refine Tree.everywhere_single (fun ps b h => ?_) rfl <|
    Tree.everywhere_pair nofun rfl (Tree.everywhere_leaf nofun rfl) (Tree.everywhere_leaf nofun rfl)
  cases h
  exact fun hmem => hq (List.mem_singleton.1 hmem)

theorem free_undeclared : ∀ q ∈ call.freeParams, shift.Undeclared q := by
  intro q hq
  have hfree : call.freeParams = [g] := rfl
  rw [hfree] at hq
  rw [List.mem_singleton.1 hq]
  exact shift_undeclared (by decide)

theorem call_ends : Ends Registry.empty.host (fun E => evaluate E scope call) store (.ok (.int 2) store) := by
  refine ⟨1, fun n hn => ?_⟩
  obtain ⟨m, rfl⟩ : ∃ m, n = m + 1 := ⟨n - 1, by omega⟩
  rfl

end Incremented

/-- `y => y + g(1)` and `y => y + p` with `p` bound to 2. -/
theorem substitute_application_incremented :
    ∃ B P, Bisimulation Registry.empty.host B ∧ B ⟨Incremented.store, Incremented.store, P⟩ ∧
      (∀ x, Incremented.made x → P x x) ∧
      SameOutcome Registry.empty.host B Value.Coupled ⟨Incremented.store, Incremented.store, P⟩
        (fun E => evaluate E Incremented.scope
          (Tree.substitute Incremented.p Incremented.call Incremented.shift))
        fun E => evaluate E (Incremented.scope.bind Incremented.p (.int 2)) Incremented.shift :=
  substitute_application (registry_impartial Registry.empty) Incremented.resides Incremented.shift_from
    Incremented.call_from Incremented.scope_from (.scalar rfl) (Incremented.shift_undeclared (by decide))
    Incremented.free_undeclared Incremented.call_ends

namespace Conjoined

def p : Param := ⟨0, "p", .specification .int⟩

def x : Param := ⟨1, "x", .int⟩

/-- `x => x == 1` -/
def isOne : Dual :=
  ⟨0, .specification, .int, .bool, .lambda ⟨[x], .operation .equal (.param x) (.literal (.int 1) .int)⟩⟩

/-- `isOne & isOne` -/
def conjunction : Expr :=
  .binary .and isOne.literal isOne.literal (some (Specification.conjunctionMethod .int))

/-- `p == p` -/
def same : Expr := .operation .equal (.param p) (.param p)

/-- What the conjunction is evaluated to, under an identity given out then. -/
def both (id : Nat) : Value := .dual ⟨id, .specification, .int, .bool, .conjunction isOne isOne⟩

/-- A store that has given out so many identities. -/
def store (n : Nat) : Store := { Store.initial with nextId := n }

end Conjoined

/-- **A replacement that makes an object makes it anew wherever the parameter is read.** The specification that
a conjunction denotes is the same as itself, but two evaluations of the conjunction make two specifications. -/
theorem substitute_apart :
    Conjoined.same.Undeclared Conjoined.p ∧ Conjoined.conjunction.freeParams = [] ∧
      Ends Registry.empty.host (fun E => evaluate E [] Conjoined.conjunction) (Conjoined.store 1)
        (.ok (Conjoined.both 1) (Conjoined.store 2)) ∧
      Ends Registry.empty.host
        (fun E => evaluate E [] (Tree.substitute Conjoined.p Conjoined.conjunction Conjoined.same))
        (Conjoined.store 2) (.ok (.bool false) (Conjoined.store 4)) ∧
      Ends Registry.empty.host
        (fun E => evaluate E (Scope.bind [] Conjoined.p (Conjoined.both 1)) Conjoined.same)
        (Conjoined.store 2) (.ok (.bool true) (Conjoined.store 2)) := by
  refine ⟨Tree.everywhere_iff.2 ⟨nofun, fun c hc => ?_⟩, rfl, ⟨0, fun _ _ => rfl⟩, ⟨0, fun _ _ => rfl⟩,
    ⟨0, fun _ _ => rfl⟩⟩
  rcases List.mem_pair.1 hc with rfl | rfl
  all_goals exact Tree.everywhere_iff.2 ⟨nofun, nofun⟩

end DualForm
