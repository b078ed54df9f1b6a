import DualForm.Proofs.Application.Objects

/-!
# Trees, functions and duals of two runs

* `Correspondence` — parameters read in place of each other; `Correspondence.under` — below lambdas.
* `View` — trees that stand for reads of a parameter, and the scopes in which they do.
* `Tree.Coupled P V Γ t u` — the same tree, up to the objects in it, the names given to parameters by `Γ` and
  the trees that `V` puts in place of others. `Scope.Coupled P Γ σ ρ` — scopes that agree on `Γ`.
* `Contract` — the routines and builders of the host that may be run.
* `Code.Coupled`, `Origin.Coupled`, `Object.Coupled` — functions that do the same, duals made in the same way,
  and objects of which one may stand for the other.

Principal results: `Scope.Coupled.bindAll` — scopes stay coupled where parameters are bound;
`Tree.Coupled.seen`, `Object.Coupled.seen` — trees and objects are coupled from any two sides.
-/

namespace DualForm

variable {P Q : Pairing} {a b : Side}

/-! ## Parameters and scopes -/

/-- Parameters read in place of each other. -/
abbrev Correspondence := Param → Param → Prop

namespace Correspondence

/-- Below lambdas that declare these parameters position by position, the innermost first. -/
def under (Γ : Correspondence) : List Param → List Param → Correspondence
  | p :: ps, q :: qs => fun x y => (x = p ∧ y = q) ∨ (x ≠ p ∧ y ≠ q ∧ Γ.under ps qs x y)
  | _, _ => Γ

/-- The correspondence from other sides. -/
def seen (Γ : Correspondence) (a b : Side) : Correspondence :=
  fun x y => ∃ p q, Γ p q ∧ a.of p q = x ∧ b.of p q = y

theorem under_seen {Γ Δ : Correspondence} (h : ∀ x y, Γ x y → Δ (a.of x y) (b.of x y)) :
    ∀ {ps qs : List Param}, ps.length = qs.length → ∀ x y, Γ.under ps qs x y →
      Δ.under (a.of ps qs) (b.of ps qs) (a.of x y) (b.of x y)
  | [], [], _, x, y, hxy => by
      have hxy := h x y hxy
      cases a <;> cases b <;> exact hxy
  | p :: ps, q :: qs, hlength, x, y, hxy => by
      rcases hxy with ⟨rfl, rfl⟩ | ⟨hx, hy, hxy⟩
      · cases a <;> cases b <;> exact .inl ⟨rfl, rfl⟩
      · have hrest := under_seen h (Nat.succ.inj hlength) x y hxy
        cases a <;> cases b
        · exact .inr ⟨hx, hx, hrest⟩
        · exact .inr ⟨hx, hy, hrest⟩
        · exact .inr ⟨hy, hx, hrest⟩
        · exact .inr ⟨hy, hy, hrest⟩

theorem under_append {Γ : Correspondence} {p q : Param} : ∀ {ps qs : List Param}, ps.length = qs.length →
    Γ.under (ps ++ [p]) (qs ++ [q]) = (Γ.under [p] [q]).under ps qs
  | [], [], _ => rfl
  | x :: ps, y :: qs, hlength => by
      have hrest : Γ.under (ps ++ [p]) (qs ++ [q]) = (Γ.under [p] [q]).under ps qs :=
        under_append (Nat.succ.inj hlength)
      show (fun _ _ => _ ∨ (_ ∧ _ ∧ Γ.under (ps ++ [p]) (qs ++ [q]) _ _)) = _
      rw [hrest]
      rfl

end Correspondence

/-- What a scope binds the one parameter to is coupled with what the other one binds the other to; where
neither does, they have the same name. -/
inductive LookupCoupled (P : Pairing) (p q : Param) : Option Value → Option Value → Prop
  | none : p.name = q.name → LookupCoupled P p q none none
  | some {v w : Value} : Value.Coupled P v w → LookupCoupled P p q (some v) (some w)

theorem LookupCoupled.mono (h : ∀ x y, P x y → Q x y) {p q : Param} {u u' : Option Value}
    (hu : LookupCoupled P p q u u') : LookupCoupled Q p q u u' := by
  cases hu with
  | none hname => exact .none hname
  | some hv => exact .some (hv.mono h)

/-- Scopes that agree on corresponding parameters. -/
def Scope.Coupled (P : Pairing) (Γ : Correspondence) (σ ρ : Scope) : Prop :=
  ∀ p q, Γ p q → LookupCoupled P p q (σ.lookup? p) (ρ.lookup? q)

namespace Scope

theorem lookup?_cons (p : Param) (v : Value) (σ : Scope) (q : Param) :
    lookup? ((p, v) :: σ) q = if q = p then some v else σ.lookup? q := by
  unfold lookup?
  rw [List.find?_cons]
  by_cases h : p = q
  · simp [h]
  · simp [h, Ne.symm h]

theorem bindAll_cons (σ : Scope) (p : Param) (v : Value) (ps : List Param) (vs : List Value) :
    σ.bindAll (p :: ps) (v :: vs) = bindAll ((p, v) :: σ) ps vs := by
  unfold bindAll
  simp

/-- One more binding on both sides. -/
theorem Coupled.bind {Γ : Correspondence} {σ ρ : Scope} {p q : Param} {v w : Value}
    (h : Scope.Coupled P Γ σ ρ) (hv : Value.Coupled P v w) :
    Scope.Coupled P (Γ.under [p] [q]) ((p, v) :: σ) ((q, w) :: ρ) := by
  intro x y hxy
  rw [lookup?_cons, lookup?_cons]
  rcases hxy with ⟨rfl, rfl⟩ | ⟨hx, hy, hxy⟩
  · rw [if_pos rfl, if_pos rfl]
    exact .some hv
  · rw [if_neg hx, if_neg hy]
    exact h x y hxy

/-- **Scopes stay coupled where parameters are bound to coupled values.** -/
theorem Coupled.bindAll : ∀ {Γ : Correspondence} {σ ρ : Scope} {ps qs : List Param} {vs ws : List Value},
    Scope.Coupled P Γ σ ρ → ps.length = qs.length → ps.length = vs.length → Value.AllCoupled P vs ws →
    Scope.Coupled P (Γ.under ps.reverse qs.reverse) (σ.bindAll ps vs) (ρ.bindAll qs ws)
  | _, _, _, [], [], _, _, h, _, _, _ => h
  | Γ, σ, ρ, p :: ps, q :: qs, _, _, h, hlength, hvalues, .cons hv hvs => by
      have hrest := Coupled.bindAll (h.bind (p := p) (q := q) hv) (Nat.succ.inj hlength)
        (Nat.succ.inj hvalues) hvs
      rw [bindAll_cons, bindAll_cons, List.reverse_cons, List.reverse_cons,
        Correspondence.under_append (by simpa using hlength)]
      exact hrest

theorem of_lookup? (σ ρ : Scope) (x y : Param) :
    (a.of σ ρ).lookup? (a.of x y) = a.of (σ.lookup? x) (ρ.lookup? y) := by cases a <;> rfl

theorem Coupled.mono {Γ : Correspondence} {σ ρ : Scope} (h : ∀ x y, P x y → Q x y)
    (hσ : Scope.Coupled P Γ σ ρ) : Scope.Coupled Q Γ σ ρ := fun p q hpq => (hσ p q hpq).mono h

/-- Scopes are coupled from any two sides. -/
theorem Coupled.seen {Γ : Correspondence} {σ ρ : Scope} (h : ∀ x y, P x y → Q (a.of x y) (b.of x y))
    (hσ : Scope.Coupled P Γ σ ρ) : Scope.Coupled Q (Γ.seen a b) (a.of σ ρ) (b.of σ ρ) := by
  rintro _ _ ⟨p, q, hpq, rfl, rfl⟩
  rw [of_lookup?, of_lookup?]
  have hlookup := hσ p q hpq
  generalize σ.lookup? p = u at hlookup
  generalize ρ.lookup? q = u' at hlookup
  cases hlookup with
  | none hname =>
      cases a <;> cases b
      · exact .none rfl
      · exact .none hname
      · exact .none hname.symm
      · exact .none rfl
  | some hv =>
      have hv := hv.seen h
      cases a <;> cases b <;> exact .some hv

end Scope

/-! ## Trees -/

/-- Trees put in place of others, and where. -/
structure View where
  /-- The one tree on the left stands for the other one on the right. -/
  replaces : Expr → Expr → Prop
  /-- Parameters that lambdas around them may declare. -/
  declares : Param → Prop
  /-- Scopes of either side in which they do. -/
  holds : Side → Scope → Prop
  bind : ∀ {a σ ps} (vs : List Value), holds a σ → (∀ p ∈ ps, declares p) → holds a (σ.bindAll ps vs)

namespace View

/-- No tree stands for another one. -/
def plain : View := ⟨fun _ _ => False, fun _ => True, fun _ _ => True, fun _ _ _ => trivial⟩

/-- The view from other sides. -/
def seen (V : View) (a b : Side) : View where
  replaces t u := ∃ x y, V.replaces x y ∧ a.of x y = t ∧ b.of x y = u
  declares := V.declares
  holds c := V.holds (c.of a b)
  bind := V.bind

theorem seen_plain (a b : Side) : plain.seen a b = plain := by
  simp [seen, plain]

theorem seen_self (V : View) : V.seen .left .right = V := by
  obtain ⟨replaces, declares, holds, bind⟩ := V
  have hholds : (fun c : Side => holds (c.of Side.left Side.right)) = holds := by
    funext c
    cases c <;> rfl
  have hreplaces : (fun t u => ∃ x y, replaces x y ∧ Side.left.of x y = t ∧ Side.right.of x y = u) =
      replaces := by
    funext t u
    simp [Side.of]
  simp only [seen, hholds, hreplaces]

end View

/-- Members are read in the same way. -/
inductive Getter.Coupled (P : Pairing) : Getter → Getter → Prop
  | field : Getter.Coupled P .field .field
  | property {f g : Func} : P (.func f) (.func g) → Getter.Coupled P (.property f) (.property g)
  | fixed {v w : Value} : Value.Coupled P v w → Getter.Coupled P (.fixed v) (.fixed w)
  | computed {f g : Func} : P (.func f) (.func g) → Getter.Coupled P (.computed f) (.computed g)
  | evaluator (kind : DualKind) : Getter.Coupled P (.evaluator kind) (.evaluator kind)

/-- Methods are run in the same way. -/
inductive Invoker.Coupled (P : Pairing) : Invoker → Invoker → Prop
  | function {f g : Func} : P (.func f) (.func g) → Invoker.Coupled P (.function f) (.function g)
  | method {f g : Func} : P (.func f) (.func g) → Invoker.Coupled P (.method f) (.method g)
  | evaluate (kind : DualKind) : Invoker.Coupled P (.evaluate kind) (.evaluate kind)
  | toFunction (kind : DualKind) : Invoker.Coupled P (.toFunction kind) (.toFunction kind)
  | conjunction : Invoker.Coupled P .conjunction .conjunction
  | disjunction : Invoker.Coupled P .disjunction .disjunction
  | negation : Invoker.Coupled P .negation .negation
  | bind : Invoker.Coupled P .bind .bind

/-- The same member, read in the same way. -/
structure Member.Coupled (P : Pairing) (m n : Member Getter) : Prop where
  signature : m.toMemberSignature = n.toMemberSignature
  getter : Getter.Coupled P m.getter n.getter

/-- The same method, run in the same way. -/
structure Method.Coupled (P : Pairing) (m n : Method Invoker) : Prop where
  signature : m.toMethodSignature = n.toMethodSignature
  invoker : Invoker.Coupled P m.invoker n.invoker

namespace Tree

mutual

/-- The same tree, up to the objects in it, to parameters that correspond, and to what the view puts in place
of other trees. -/
inductive Coupled (P : Pairing) (V : View) : Correspondence → Expr → Expr → Prop
  | replaced {Γ : Correspondence} {t u : Expr} : V.replaces t u → Coupled P V Γ t u
  | literal {Γ : Correspondence} {v w : Value} (ty : Ty) : Value.Coupled P v w →
      Coupled P V Γ (.literal v ty) (.literal w ty)
  | param {Γ : Correspondence} {p q : Param} : Γ p q → Coupled P V Γ (.param p) (.param q)
  | staticMember {Γ : Correspondence} {m n : Member Getter} : Member.Coupled P m n →
      Coupled P V Γ (.staticMember m) (.staticMember n)
  | member {Γ : Correspondence} {t u : Expr} {m n : Member Getter} : Coupled P V Γ t u →
      Member.Coupled P m n → Coupled P V Γ (.member t m) (.member u n)
  | staticCall {Γ : Correspondence} {m n : Method Invoker} {ts us : List Expr} : Method.Coupled P m n →
      AllCoupled P V Γ ts us → Coupled P V Γ (.staticCall m ts) (.staticCall n us)
  | call {Γ : Correspondence} {t u : Expr} {m n : Method Invoker} {ts us : List Expr} :
      Coupled P V Γ t u → Method.Coupled P m n → AllCoupled P V Γ ts us →
      Coupled P V Γ (.call t m ts) (.call u n us)
  | binary {Γ : Correspondence} (op : BinaryOp) {t u t' u' : Expr} {m n : Option (Method Invoker)} :
      Coupled P V Γ t u → Coupled P V Γ t' u' → Option.Rel (Method.Coupled P) m n →
      Coupled P V Γ (.binary op t t' m) (.binary op u u' n)
  | unary {Γ : Correspondence} (op : UnaryOp) {t u : Expr} {m n : Option (Method Invoker)} (ty : Ty) :
      Coupled P V Γ t u → Option.Rel (Method.Coupled P) m n →
      Coupled P V Γ (.unary op t m ty) (.unary op u n ty)
  | lambda {Γ : Correspondence} {ps qs : List Param} {t u : Expr} : ps.length = qs.length →
      (∀ p ∈ ps, V.declares p) → (∀ q ∈ qs, V.declares q) →
      Coupled P V (Γ.under ps.reverse qs.reverse) t u → Coupled P V Γ (.lambda ps t) (.lambda qs u)
  | invoke {Γ : Correspondence} {t u : Expr} {ts us : List Expr} : Coupled P V Γ t u →
      AllCoupled P V Γ ts us → Coupled P V Γ (.invoke t ts) (.invoke u us)
  | conditional {Γ : Correspondence} {t u t₁ u₁ t₂ u₂ : Expr} : Coupled P V Γ t u →
      Coupled P V Γ t₁ u₁ → Coupled P V Γ t₂ u₂ →
      Coupled P V Γ (.conditional t t₁ t₂) (.conditional u u₁ u₂)

/-- The same trees one by one. -/
inductive AllCoupled (P : Pairing) (V : View) : Correspondence → List Expr → List Expr → Prop
  | nil {Γ : Correspondence} : AllCoupled P V Γ [] []
  | cons {Γ : Correspondence} {t u : Expr} {ts us : List Expr} : Coupled P V Γ t u →
      AllCoupled P V Γ ts us → AllCoupled P V Γ (t :: ts) (u :: us)

end

end Tree

/-! ### From other sides -/

section Seen

variable (h : ∀ x y, P x y → Q (a.of x y) (b.of x y))

include h

theorem Member.Coupled.seen {m n : Member Getter} (hmn : Member.Coupled P m n) :
    Member.Coupled Q (a.of m n) (b.of m n) := by
  obtain ⟨signature, getter⟩ := m
  obtain ⟨signature', getter'⟩ := n
  obtain ⟨rfl, hgetter⟩ := hmn
  have hcoupled : Getter.Coupled Q (a.of getter getter') (b.of getter getter') := by
    cases hgetter with
    | field => cases a <;> cases b <;> exact .field
    | property hf => have hf := h _ _ hf; cases a <;> cases b <;> exact .property hf
    | fixed hv => have hv := hv.seen h; cases a <;> cases b <;> exact .fixed hv
    | computed hf => have hf := h _ _ hf; cases a <;> cases b <;> exact .computed hf
    | evaluator kind => cases a <;> cases b <;> exact .evaluator kind
  cases a <;> cases b <;> exact ⟨rfl, hcoupled⟩

theorem Method.Coupled.seen {m n : Method Invoker} (hmn : Method.Coupled P m n) :
    Method.Coupled Q (a.of m n) (b.of m n) := by
  obtain ⟨signature, invoker⟩ := m
  obtain ⟨signature', invoker'⟩ := n
  obtain ⟨rfl, hinvoker⟩ := hmn
  have hcoupled : Invoker.Coupled Q (a.of invoker invoker') (b.of invoker invoker') := by
    cases hinvoker with
    | function hf => have hf := h _ _ hf; cases a <;> cases b <;> exact .function hf
    | method hf => have hf := h _ _ hf; cases a <;> cases b <;> exact .method hf
    | evaluate kind => cases a <;> cases b <;> exact .evaluate kind
    | toFunction kind => cases a <;> cases b <;> exact .toFunction kind
    | conjunction => cases a <;> cases b <;> exact .conjunction
    | disjunction => cases a <;> cases b <;> exact .disjunction
    | negation => cases a <;> cases b <;> exact .negation
    | bind => cases a <;> cases b <;> exact .bind
  cases a <;> cases b <;> exact ⟨rfl, hcoupled⟩

theorem Method.Coupled.seenOption {m n : Option (Method Invoker)} (hmn : Option.Rel (Method.Coupled P) m n) :
    Option.Rel (Method.Coupled Q) (a.of m n) (b.of m n) := by
  cases hmn with
  | none => cases a <;> cases b <;> exact .none
  | some hm =>
      have hm := Method.Coupled.seen h hm
      cases a <;> cases b <;> exact .some hm

end Seen

theorem Member.Coupled.mono {m n : Member Getter} (h : ∀ x y, P x y → Q x y) (hmn : Member.Coupled P m n) :
    Member.Coupled Q m n := Member.Coupled.seen (a := .left) (b := .right) h hmn

theorem Method.Coupled.mono {m n : Method Invoker} (h : ∀ x y, P x y → Q x y) (hmn : Method.Coupled P m n) :
    Method.Coupled Q m n := Method.Coupled.seen (a := .left) (b := .right) h hmn

namespace Tree

variable {V : View}

mutual

/-- **Trees are coupled from any two sides.** -/
theorem Coupled.seen (h : ∀ x y, P x y → Q (a.of x y) (b.of x y)) : ∀ {Γ Δ : Correspondence} {t u : Expr},
    (∀ x y, Γ x y → Δ (a.of x y) (b.of x y)) → Coupled P V Γ t u →
    Coupled Q (V.seen a b) Δ (a.of t u) (b.of t u)
  | _, _, _, _, _, .replaced htu => .replaced ⟨_, _, htu, rfl, rfl⟩
  | _, _, _, _, _, .literal ty hv => by
      have hv := hv.seen h
      cases a <;> cases b <;> exact .literal ty hv
  | _, _, _, _, hΓ, .param hpq => by
      have hpq := hΓ _ _ hpq
      cases a <;> cases b <;> exact .param hpq
  | _, _, _, _, _, .staticMember hm => by
      have hm := Member.Coupled.seen h hm
      cases a <;> cases b <;> exact .staticMember hm
  | _, _, _, _, hΓ, .member ht hm => by
      have ht := ht.seen h hΓ
      have hm := Member.Coupled.seen h hm
      cases a <;> cases b <;> exact .member ht hm
  | _, _, _, _, hΓ, .staticCall hm hts => by
      have hm := Method.Coupled.seen h hm
      have hts := hts.seen h hΓ
      cases a <;> cases b <;> exact .staticCall hm hts
  | _, _, _, _, hΓ, .call ht hm hts => by
      have ht := ht.seen h hΓ
      have hm := Method.Coupled.seen h hm
      have hts := hts.seen h hΓ
      cases a <;> cases b <;> exact .call ht hm hts
  | _, _, _, _, hΓ, .binary op ht ht' hm => by
      have ht := ht.seen h hΓ
      have ht' := ht'.seen h hΓ
      have hm := Method.Coupled.seenOption h hm
      cases a <;> cases b <;> exact .binary op ht ht' hm
  | _, _, _, _, hΓ, .unary op ty ht hm => by
      have ht := ht.seen h hΓ
      have hm := Method.Coupled.seenOption h hm
      cases a <;> cases b <;> exact .unary op ty ht hm
  | _, _, _, _, hΓ, .lambda hlength hps hqs ht => by
      have hbody := ht.seen h (Correspondence.under_seen hΓ (by simpa using hlength))
      cases a <;> cases b
      · exact .lambda rfl hps hps hbody
      · exact .lambda hlength hps hqs hbody
      · exact .lambda hlength.symm hqs hps hbody
      · exact .lambda rfl hqs hqs hbody
  | _, _, _, _, hΓ, .invoke ht hts => by
      have ht := ht.seen h hΓ
      have hts := hts.seen h hΓ
      cases a <;> cases b <;> exact .invoke ht hts
  | _, _, _, _, hΓ, .conditional ht ht₁ ht₂ => by
      have ht := ht.seen h hΓ
      have ht₁ := ht₁.seen h hΓ
      have ht₂ := ht₂.seen h hΓ
      cases a <;> cases b <;> exact .conditional ht ht₁ ht₂

theorem AllCoupled.seen (h : ∀ x y, P x y → Q (a.of x y) (b.of x y)) :
    ∀ {Γ Δ : Correspondence} {ts us : List Expr}, (∀ x y, Γ x y → Δ (a.of x y) (b.of x y)) →
    AllCoupled P V Γ ts us → AllCoupled Q (V.seen a b) Δ (a.of ts us) (b.of ts us)
  | _, _, _, _, _, .nil => by cases a <;> cases b <;> exact .nil
  | _, _, _, _, hΓ, .cons ht hts => by
      have ht := ht.seen h hΓ
      have hts := hts.seen h hΓ
      cases a <;> cases b <;> exact .cons ht hts

end

theorem Coupled.mono {Γ : Correspondence} {t u : Expr} (h : ∀ x y, P x y → Q x y)
    (ht : Coupled P V Γ t u) : Coupled Q V Γ t u := by
  have hseen : Coupled Q (V.seen .left .right) Γ (Side.left.of t u) (Side.right.of t u) :=
    ht.seen h fun _ _ hxy => hxy
  rwa [View.seen_self] at hseen

end Tree

/-! ## Functions, factories and duals -/

/-- What of the host may be run. -/
structure Contract where
  routines : String → Prop
  trees : BuilderId → Prop
  functions : BuilderId → Prop

/-- The builders that make the function may be run. -/
def Builders.Within (C : Contract) : Builders → Prop
  | .tree build => C.trees build
  | .both func _ | .function func _ => C.functions func

/-- The same argument. -/
inductive Argument.Coupled (P : Pairing) : Argument → Argument → Prop
  | value {v w : Value} : Value.Coupled P v w → Argument.Coupled P (.value v) (.value w)
  | deferred {c c' : Compiled} : P (.func c.func) (.func c'.func) →
      Argument.Coupled P (.deferred c) (.deferred c')

/-- The same arguments for the same parameters. -/
def Bindings.Coupled (P : Pairing) (bs cs : Bindings) : Prop :=
  List.Forall₂ (fun b c => b.1 = c.1 ∧ Argument.Coupled P b.2 c.2) bs cs

variable (C : Contract) (U : View → Prop)

/-- Code of functions of so many arguments that does the same. -/
inductive Code.Coupled (P : Pairing) (n : Nat) : Code → Code → Prop
  | closure {V : View} {Γ : Correspondence} {l l' : Lam} {σ ρ : Scope} : U V → l.params.length = n →
      l'.params.length = n → (∀ p ∈ l.params, V.declares p) → (∀ q ∈ l'.params, V.declares q) →
      V.holds .left σ → V.holds .right ρ → Scope.Coupled P Γ σ ρ →
      Tree.Coupled P V (Γ.under l.params.reverse l'.params.reverse) l.body l'.body →
      Code.Coupled P n (.closure l σ) (.closure l' ρ)
  | host {name : String} {vs ws : List Value} : C.routines name → Value.AllCoupled P vs ws →
      Code.Coupled P n (.host name vs) (.host name ws)
  | chain {f g f' g' : Func} : P (.func f) (.func f') → P (.func g) (.func g') →
      Code.Coupled P n (.chain f g) (.chain f' g')
  | conjunction {f g f' g' : Func} : P (.func f) (.func f') → P (.func g) (.func g') →
      Code.Coupled P n (.conjunction f g) (.conjunction f' g')
  | disjunction {f g f' g' : Func} : P (.func f) (.func f') → P (.func g) (.func g') →
      Code.Coupled P n (.disjunction f g) (.disjunction f' g')
  | negation {f f' : Func} : P (.func f) (.func f') → Code.Coupled P n (.negation f) (.negation f')
  | rebuilt {builders : Builders} {bs cs : Bindings} : builders.Within C → Bindings.Coupled P bs cs →
      Code.Coupled P n (.rebuilt builders bs) (.rebuilt builders cs)

/-- The functions two lambdas denote do the same. -/
def Lambda.Coupled (P : Pairing) (l l' : Lam) : Prop :=
  l.params.length = l'.params.length ∧
    Code.Coupled C U P l.params.length (.closure l []) (.closure l' [])

/-- Ways to make a dual whose function form does the same. -/
inductive Origin.Coupled (P : Pairing) : Origin → Origin → Prop
  | lambda {l l' : Lam} : Lambda.Coupled C U P l l' → Origin.Coupled P (.lambda l) (.lambda l')
  | compiled {c c' : Compiled} : P (.func c.func) (.func c'.func) →
      Origin.Coupled P (.compiled c) (.compiled c')
  | bound {builders : Builders} {bs cs : Bindings} : builders.Within C → Bindings.Coupled P bs cs →
      Origin.Coupled P (.bound builders bs) (.bound builders cs)
  | hosted {func : BuilderId} (build : BuilderId) (rewritten : Bool) : C.functions func →
      Origin.Coupled P (.hosted build func rewritten) (.hosted build func rewritten)
  | composed {d e d' e' : Dual} : P (.dual d) (.dual d') → P (.dual e) (.dual e') →
      Origin.Coupled P (.composed d e) (.composed d' e')
  | precomposed {d d' : Dual} {c c' : Compiled} : P (.dual d) (.dual d') →
      P (.func c.func) (.func c'.func) → Origin.Coupled P (.precomposed d c) (.precomposed d' c')
  | postcomposed {d d' : Dual} {c c' : Compiled} : P (.dual d) (.dual d') →
      P (.func c.func) (.func c'.func) → Origin.Coupled P (.postcomposed d c) (.postcomposed d' c')
  | conjunction {d e d' e' : Dual} : P (.dual d) (.dual d') → P (.dual e) (.dual e') →
      Origin.Coupled P (.conjunction d e) (.conjunction d' e')
  | disjunction {d e d' e' : Dual} : P (.dual d) (.dual d') → P (.dual e) (.dual e') →
      Origin.Coupled P (.disjunction d e) (.disjunction d' e')
  | negation {d d' : Dual} : P (.dual d) (.dual d') → Origin.Coupled P (.negation d) (.negation d')

/-- Functions that do the same. -/
structure Func.Coupled (P : Pairing) (f g : Func) : Prop where
  arity : f.arity = g.arity
  code : Code.Coupled C U P f.arity f.code g.code

/-- Duals made in the same way. -/
structure Dual.Coupled (P : Pairing) (d e : Dual) : Prop where
  kind : d.kind = e.kind
  source : d.source = e.source
  result : d.result = e.result
  origin : Origin.Coupled C U P d.origin e.origin

/-- Factories that make duals in the same way. -/
structure Factory.Coupled (P : Pairing) (k l : Factory) : Prop where
  kind : k.kind = l.kind
  builders : k.builders = l.builders
  within : k.builders.Within C
  bound : Bindings.Coupled P k.bound l.bound
  next : k.next = l.next
  second : k.second = l.second
  source : k.source = l.source
  result : k.result = l.result

/-- Objects of which one may stand for the other. -/
inductive Object.Coupled (P : Pairing) : Object → Object → Prop
  | func {f g : Func} : Func.Coupled C U P f g → Object.Coupled P (.func f) (.func g)
  | dual {d e : Dual} : Dual.Coupled C U P d e → Object.Coupled P (.dual d) (.dual e)
  | factory {k l : Factory} : Factory.Coupled C P k l → Object.Coupled P (.factory k) (.factory l)
  | record (i j : Nat) : Object.Coupled P (.record i) (.record j)

variable {C U} {U' : View → Prop}

theorem Argument.Coupled.seen {x y : Argument} (h : ∀ x y, P x y → Q (a.of x y) (b.of x y))
    (hxy : Argument.Coupled P x y) : Argument.Coupled Q (a.of x y) (b.of x y) := by
  cases hxy with
  | value hv =>
      have hv := hv.seen h
      cases a <;> cases b <;> exact .value hv
  | deferred hf =>
      have hf := h _ _ hf
      cases a <;> cases b <;> exact .deferred hf

theorem Argument.Coupled.isDeferred_eq {x y : Argument} (h : Argument.Coupled P x y) :
    x.isDeferred = y.isDeferred := by cases h <;> rfl

theorem Bindings.Coupled.seen {bs cs : Bindings} (h : ∀ x y, P x y → Q (a.of x y) (b.of x y))
    (hbs : Bindings.Coupled P bs cs) : Bindings.Coupled Q (a.of bs cs) (b.of bs cs) := by
  unfold Bindings.Coupled at hbs ⊢
  induction hbs with
  | nil => cases a <;> cases b <;> exact .nil
  | cons hxy _ ih =>
      have hargument := Argument.Coupled.seen h hxy.2
      cases a <;> cases b
      · exact .cons ⟨rfl, hargument⟩ ih
      · exact .cons ⟨hxy.1, hargument⟩ ih
      · exact .cons ⟨hxy.1.symm, hargument⟩ ih
      · exact .cons ⟨rfl, hargument⟩ ih

theorem Code.Coupled.seen {n : Nat} {c c' : Code} (h : ∀ x y, P x y → Q (a.of x y) (b.of x y))
    (hU : ∀ V, U V → U' (V.seen a b)) (hc : Code.Coupled C U P n c c') :
    Code.Coupled C U' Q n (a.of c c') (b.of c c') := by
  cases hc with
  | @closure V Γ l l' σ ρ hV hl hl' hps hqs hσ hρ hscope hbody =>
      have hscope := hscope.seen h
      have hΓ : ∀ x y, Γ x y → Γ.seen a b (a.of x y) (b.of x y) := fun x y hxy => ⟨x, y, hxy, rfl, rfl⟩
      have hlength : l.params.reverse.length = l'.params.reverse.length := by simp [hl, hl']
      have hbody := hbody.seen h (Correspondence.under_seen hΓ hlength)
      have hV := hU V hV
      cases a <;> cases b
      · exact .closure hV hl hl hps hps hσ hσ hscope hbody
      · exact .closure hV hl hl' hps hqs hσ hρ hscope hbody
      · exact .closure hV hl' hl hqs hps hρ hσ hscope hbody
      · exact .closure hV hl' hl' hqs hqs hρ hρ hscope hbody
  | host hname hvs =>
      have hvs := hvs.seen h
      cases a <;> cases b <;> exact .host hname hvs
  | chain hf hg =>
      have hf := h _ _ hf
      have hg := h _ _ hg
      cases a <;> cases b <;> exact .chain hf hg
  | conjunction hf hg =>
      have hf := h _ _ hf
      have hg := h _ _ hg
      cases a <;> cases b <;> exact .conjunction hf hg
  | disjunction hf hg =>
      have hf := h _ _ hf
      have hg := h _ _ hg
      cases a <;> cases b <;> exact .disjunction hf hg
  | negation hf =>
      have hf := h _ _ hf
      cases a <;> cases b <;> exact .negation hf
  | rebuilt hwithin hbs =>
      have hbs := hbs.seen h
      cases a <;> cases b <;> exact .rebuilt hwithin hbs

theorem Lambda.Coupled.seen {l l' : Lam} (h : ∀ x y, P x y → Q (a.of x y) (b.of x y))
    (hU : ∀ V, U V → U' (V.seen a b)) (hl : Lambda.Coupled C U P l l') :
    Lambda.Coupled C U' Q (a.of l l') (b.of l l') := by
  obtain ⟨hlength, hcode⟩ := hl
  have hseen := hcode.seen h hU
  cases a <;> cases b
  · exact ⟨rfl, hseen⟩
  · exact ⟨hlength, hseen⟩
  · exact ⟨hlength.symm, hlength ▸ hseen⟩
  · exact ⟨rfl, hlength ▸ hseen⟩

theorem Origin.Coupled.seen {o o' : Origin} (h : ∀ x y, P x y → Q (a.of x y) (b.of x y))
    (hU : ∀ V, U V → U' (V.seen a b)) (ho : Origin.Coupled C U P o o') :
    Origin.Coupled C U' Q (a.of o o') (b.of o o') := by
  cases ho with
  | lambda hl =>
      have hl := hl.seen h hU
      cases a <;> cases b <;> exact .lambda hl
  | compiled hf =>
      have hf := h _ _ hf
      cases a <;> cases b <;> exact .compiled hf
  | bound hwithin hbs =>
      have hbs := hbs.seen h
      cases a <;> cases b <;> exact .bound hwithin hbs
  | hosted build rewritten hfunc => cases a <;> cases b <;> exact .hosted build rewritten hfunc
  | composed hd he =>
      have hd := h _ _ hd
      have he := h _ _ he
      cases a <;> cases b <;> exact .composed hd he
  | precomposed hd hf =>
      have hd := h _ _ hd
      have hf := h _ _ hf
      cases a <;> cases b <;> exact .precomposed hd hf
  | postcomposed hd hf =>
      have hd := h _ _ hd
      have hf := h _ _ hf
      cases a <;> cases b <;> exact .postcomposed hd hf
  | conjunction hd he =>
      have hd := h _ _ hd
      have he := h _ _ he
      cases a <;> cases b <;> exact .conjunction hd he
  | disjunction hd he =>
      have hd := h _ _ hd
      have he := h _ _ he
      cases a <;> cases b <;> exact .disjunction hd he
  | negation hd =>
      have hd := h _ _ hd
      cases a <;> cases b <;> exact .negation hd

/-- **Objects are coupled from any two sides.** -/
theorem Object.Coupled.seen {x y : Object} (h : ∀ x y, P x y → Q (a.of x y) (b.of x y))
    (hU : ∀ V, U V → U' (V.seen a b)) (hxy : Object.Coupled C U P x y) :
    Object.Coupled C U' Q (a.of x y) (b.of x y) := by
  cases hxy with
  | func hf =>
      obtain ⟨harity, hcode⟩ := hf
      have hcode := hcode.seen h hU
      cases a <;> cases b
      · exact .func ⟨rfl, hcode⟩
      · exact .func ⟨harity, hcode⟩
      · exact .func ⟨harity.symm, harity ▸ hcode⟩
      · exact .func ⟨rfl, harity ▸ hcode⟩
  | dual hd =>
      obtain ⟨hkind, hsource, hresult, horigin⟩ := hd
      have horigin := horigin.seen h hU
      cases a <;> cases b
      · exact .dual ⟨rfl, rfl, rfl, horigin⟩
      · exact .dual ⟨hkind, hsource, hresult, horigin⟩
      · exact .dual ⟨hkind.symm, hsource.symm, hresult.symm, horigin⟩
      · exact .dual ⟨rfl, rfl, rfl, horigin⟩
  | factory hk =>
      obtain ⟨hkind, hbuilders, hwithin, hbound, hnext, hsecond, hsource, hresult⟩ := hk
      have hbound := hbound.seen h
      have hwithin' := hbuilders ▸ hwithin
      cases a <;> cases b
      · exact .factory ⟨rfl, rfl, hwithin, hbound, rfl, rfl, rfl, rfl⟩
      · exact .factory ⟨hkind, hbuilders, hwithin, hbound, hnext, hsecond, hsource, hresult⟩
      · exact .factory ⟨hkind.symm, hbuilders.symm, hwithin', hbound, hnext.symm, hsecond.symm, hsource.symm,
          hresult.symm⟩
      · exact .factory ⟨rfl, rfl, hwithin', hbound, rfl, rfl, rfl, rfl⟩
  | record i j => cases a <;> cases b <;> exact .record _ _

/-- Objects stay coupled where more objects are paired, and more views taken. -/
theorem Object.Coupled.mono {x y : Object} (h : ∀ x y, P x y → Q x y) (hU : ∀ V, U V → U' V)
    (hxy : Object.Coupled C U P x y) : Object.Coupled C U' Q x y :=
  hxy.seen (a := .left) (b := .right) h fun V hV => by rw [View.seen_self]; exact hU V hV

theorem Lambda.Coupled.mono {l l' : Lam} (h : ∀ x y, P x y → Q x y) (hU : ∀ V, U V → U' V)
    (hl : Lambda.Coupled C U P l l') : Lambda.Coupled C U' Q l l' :=
  hl.seen (a := .left) (b := .right) h fun V hV => by rw [View.seen_self]; exact hU V hV

end DualForm
