import DualForm.Proofs.Application.Replay
import DualForm.Proofs.Tree.Scope

/-!
# A tree read in place of a parameter

* `Value.From K v`, `Tree.From K t`, `Scope.From K σ` — all objects in a value, a tree or a scope are among
  those with `K`.
* `reading p r v s` — the view in which the tree `r` stands for the parameter `p`: scopes on the left bind the
  free parameters of `r` as `s` does, those on the right bind `p` to `v`. `View.Around V` — `V` from any two
  sides.
* `Repeats host r s v t` — from every store later than `t`, `r` is evaluated to `v` wherever its free
  parameters are bound as in `s`, and publishes nothing for what is there.
* `Tree.Admits p r t` — no lambda of `t` declares `p` or a free parameter of `r`.

Principal results: `reading_readable` — a tree that repeats its value is evaluated like the parameter it
stands for; `Tree.Coupled.substitute` — a substituted tree is coupled with the tree it was made from.
-/

namespace DualForm

open Value (Coupled AllCoupled)

variable {host : Host} {C : Contract} {K : Object → Prop} {P : Pairing} {p : Param} {r : Expr} {v : Value}
  {s σ ρ : Scope} {t L : Store}

/-! ## Trees and the parameters they read -/

/-- The objects in the value are among those with `K`. -/
def Value.From (K : Object → Prop) (v : Value) : Prop := Value.Coupled (.diagonal K) v v

/-- The objects in the tree are among those with `K`. -/
def Tree.From (K : Object → Prop) (t : Expr) : Prop := Tree.Coupled (.diagonal K) .plain Eq t t

/-- The objects in the scope are among those with `K`. -/
def Scope.From (K : Object → Prop) (σ : Scope) : Prop := ∀ p v, σ.lookup? p = some v → v.From K

/-- These parameters are read in place of themselves. -/
def Correspondence.among (ps : List Param) : Correspondence := fun x y => x = y ∧ x ∈ ps

theorem Correspondence.under_mono {Γ Δ : Correspondence} {bound : List Param}
    (h : ∀ x y, x ∈ bound → Γ x y → Δ x y) : ∀ {ps qs : List Param}, ps.length = qs.length →
      ∀ x y, x ∈ ps ++ bound → Γ.under ps qs x y → Δ.under ps qs x y
  | [], [], _, x, y, hx, hxy => h x y hx hxy
  | _ :: _, _ :: _, _, _, _, _, .inl hxy => .inl hxy
  | _ :: _, _ :: _, hlength, x, y, hx, .inr ⟨hxp, hyq, hxy⟩ =>
      .inr ⟨hxp, hyq, under_mono h (Nat.succ.inj hlength) x y ((List.mem_cons.1 hx).resolve_left hxp) hxy⟩

namespace Tree

variable {V : View}

mutual

/-- Only the parameters in scope matter. -/
theorem Coupled.corresponding : ∀ {Γ Δ : Correspondence} {bound : List Param} {t u : Expr},
    Coupled P .plain Γ t u → Scoped bound t → (∀ x y, x ∈ bound → Γ x y → Δ x y) → Coupled P .plain Δ t u
  | _, _, _, _, _, .replaced h, _, _ => h.elim
  | _, _, _, _, _, .literal ty hv, _, _ => .literal ty hv
  | _, _, _, _, _, .param hpq, hscoped, h => .param (h _ _ hscoped hpq)
  | _, _, _, _, _, .staticMember hm, _, _ => .staticMember hm
  | _, _, _, _, _, .member ht hm, hscoped, h =>
      .member (ht.corresponding (hscoped.child (List.mem_singleton.2 rfl)) h) hm
  | _, _, _, _, _, .staticCall hm hts, hscoped, h =>
      .staticCall hm (hts.corresponding (fun _ hc => hscoped.child hc) h)
  | _, _, _, _, _, .call ht hm hts, hscoped, h =>
      .call (ht.corresponding (hscoped.child (List.mem_cons_self ..)) h) hm
        (hts.corresponding (fun _ hc => hscoped.child (List.mem_cons_of_mem _ hc)) h)
  | _, _, _, _, _, .binary op ht ht' hm, hscoped, h =>
      .binary op (ht.corresponding (hscoped.child (List.mem_cons_self ..)) h)
        (ht'.corresponding (hscoped.child (List.mem_cons_of_mem _ (List.mem_singleton.2 rfl))) h) hm
  | _, _, _, _, _, .unary op ty ht hm, hscoped, h =>
      .unary op ty (ht.corresponding (hscoped.child (List.mem_singleton.2 rfl)) h) hm
  | _, _, bound, .lambda ps _, .lambda qs _, .lambda hlength hps hqs ht, hscoped, h => by
      have hscoped : Scoped (ps.reverse ++ bound) _ :=
        (scoped_lambda.1 hscoped).mono (by simp)
      have hreverse : ps.reverse.length = qs.reverse.length := by simpa using hlength
      have hunder := Correspondence.under_mono h hreverse
      exact .lambda hlength hps hqs (ht.corresponding hscoped hunder)
  | _, _, _, _, _, .invoke ht hts, hscoped, h =>
      .invoke (ht.corresponding (hscoped.child (List.mem_cons_self ..)) h)
        (hts.corresponding (fun _ hc => hscoped.child (List.mem_cons_of_mem _ hc)) h)
  | _, _, _, _, _, .conditional ht ht₁ ht₂, hscoped, h =>
      .conditional (ht.corresponding (hscoped.child (List.mem_cons_self ..)) h)
        (ht₁.corresponding (hscoped.child (List.mem_cons_of_mem _ (List.mem_cons_self ..))) h)
        (ht₂.corresponding
          (hscoped.child (List.mem_cons_of_mem _ (List.mem_cons_of_mem _ (List.mem_singleton.2 rfl)))) h)

theorem AllCoupled.corresponding : ∀ {Γ Δ : Correspondence} {bound : List Param} {ts us : List Expr},
    AllCoupled P .plain Γ ts us → (∀ t ∈ ts, Scoped bound t) → (∀ x y, x ∈ bound → Γ x y → Δ x y) →
    AllCoupled P .plain Δ ts us
  | _, _, _, _, _, .nil, _, _ => .nil
  | _, _, _, _, _, .cons ht hts, hscoped, h =>
      .cons (ht.corresponding (hscoped _ (List.mem_cons_self ..)) h)
        (hts.corresponding (fun t ht => hscoped t (List.mem_cons_of_mem _ ht)) h)

end

/-- A tree is coupled with itself, whatever else is bound. -/
theorem From.among {t : Expr} (h : Tree.From K t) :
    Tree.Coupled (.diagonal K) .plain (.among t.freeParams) t t :=
  Coupled.corresponding h (scoped_freeParams t [] []).2 fun _ _ hx hxy => ⟨hxy, hx⟩

end Tree

/-- Scopes that bind the parameters as `s` does. -/
theorem Scope.From.among {ps : List Param} (hs : s.From K) (hσ : ∀ q ∈ ps, σ.lookup? q = s.lookup? q)
    (hρ : ∀ q ∈ ps, ρ.lookup? q = s.lookup? q) : Scope.Coupled (.diagonal K) (.among ps) σ ρ := by
  rintro x _ ⟨rfl, hx⟩
  rw [hσ x hx, hρ x hx]
  cases hlookup : s.lookup? x with
  | none => exact .none rfl
  | some v => exact .some (hs x v hlookup)

/-! ## The view -/

theorem Scope.lookup?_bindAll {q : Param} : ∀ {ps : List Param} (σ : Scope) (vs : List Value), q ∉ ps →
    (σ.bindAll ps vs).lookup? q = σ.lookup? q
  | [], _, _, _ => rfl
  | _ :: _, _, [], _ => rfl
  | p :: ps, σ, v :: vs, hq => by
      have hne : q ≠ p := List.ne_of_not_mem_cons hq
      rw [bindAll_cons, lookup?_bindAll _ vs (List.not_mem_of_not_mem_cons hq), lookup?_cons, if_neg hne]

/-- Reads of the parameter on the right are evaluations of the tree on the left. -/
def reading (p : Param) (r : Expr) (v : Value) (s : Scope) : View where
  replaces t u := t = r ∧ u = .param p
  declares q := q ≠ p ∧ q ∉ r.freeParams
  holds
    | .left, σ => ∀ q ∈ r.freeParams, σ.lookup? q = s.lookup? q
    | .right, σ => σ.lookup? p = some v
  bind {a σ ps} vs hσ hps := by
    cases a with
    | left =>
        intro q hq
        rw [Scope.lookup?_bindAll σ vs fun h => (hps q h).2 hq, hσ q hq]
    | right =>
        show (σ.bindAll ps vs).lookup? p = some v
        rw [Scope.lookup?_bindAll σ vs fun h => (hps p h).1 rfl]
        exact hσ

namespace View

/-- The view from any two sides, or none at all. -/
def Around (V V' : View) : Prop := V' = plain ∨ ∃ a b, V' = V.seen a b

theorem seen_seen (V : View) (a b c d : Side) : (V.seen a b).seen c d = V.seen (c.of a b) (d.of a b) := by
  have hreplaces : ((V.seen a b).seen c d).replaces = (V.seen (c.of a b) (d.of a b)).replaces := by
    funext t u
    refine propext ⟨?_, ?_⟩
    · rintro ⟨_, _, ⟨x, y, hxy, rfl, rfl⟩, rfl, rfl⟩
      exact ⟨x, y, hxy, by cases c <;> rfl, by cases d <;> rfl⟩
    · rintro ⟨x, y, hxy, rfl, rfl⟩
      exact ⟨_, _, ⟨x, y, hxy, rfl, rfl⟩, by cases c <;> rfl, by cases d <;> rfl⟩
  have hholds : ((V.seen a b).seen c d).holds = (V.seen (c.of a b) (d.of a b)).holds := by
    funext e
    cases e <;> rfl
  simp only [seen] at hreplaces hholds ⊢
  simp only [hreplaces, hholds]

theorem Around.seen {V : View} (a b : Side) : ∀ V', V.Around V' → V.Around (V'.seen a b) := by
  rintro _ (rfl | ⟨c, d, rfl⟩)
  · exact .inl (seen_plain a b)
  · exact .inr ⟨_, _, seen_seen V c d a b⟩

theorem Around.self (V : View) : V.Around V := .inr ⟨.left, .right, V.seen_self.symm⟩

end View

/-! ## Evaluating the tree -/

/-- Wherever its free parameters are bound as in `s`, the tree is evaluated to `v` from every store later than
`t`, and nothing is published for what is there. -/
def Repeats (host : Host) (r : Expr) (s : Scope) (v : Value) (t : Store) : Prop :=
  ∀ {L : Store} {σ : Scope}, t.Extends L → L.Unspent → (∀ q ∈ r.freeParams, σ.lookup? q = s.lookup? q) →
    ∃ L', Ends host (fun E => evaluate E σ r) L (.ok v L') ∧ L.Extends L' ∧ L'.Unspent ∧
      ∀ i < L.nextId, L'.functions[i]? = L.functions[i]?

/-- On either side the value is read, and nothing is published for what is there. -/
theorem Repeats.side (hr : Repeats host r s v t) (ht : t.Extends L) (hL : L.Unspent) {a : Side}
    (hσ : (reading p r v s).holds a σ) :
    ∃ L', Ends host (fun E => evaluate E σ (a.of r (.param p))) L (.ok v L') ∧ L.Extends L' ∧ L'.Unspent ∧
      ∀ i < L.nextId, L'.functions[i]? = L.functions[i]? := by
  cases a with
  | left => exact hr ht hL hσ
  | right => exact ⟨L, ⟨0, fun n _ => congrFun (evaluate_bound hσ) L⟩, .refl L, hL, fun _ _ => rfl⟩

section Readable

variable {n : Nat} {W : Tandem} (hE : (machine host n).Echoes host C (reading p r v s).Around (together K t))
  (hfrom : Tree.From K r) (hs : s.From K) (hW : W.Sound C (reading p r v s).Around)
  (hinv : (together K t).inv W)

include hE hfrom hs hW hinv

/-- What the tree is evaluated to, it is evaluated to with more nested steps, too. -/
theorem reading_ends (hσ : ∀ q ∈ r.freeParams, σ.lookup? q = s.lookup? q) :
    (∃ L, evaluate (machine host n) σ r W.left = .error .exhausted L) ∨
      Ends host (fun E => evaluate E σ r) W.left (evaluate (machine host n) σ r W.left) := by
  obtain ⟨-, hK, hl, -⟩ := hinv
  have hpairs : ∀ x y, Pairing.diagonal K x y → (W.seen .left .left).pairs x y :=
    fun x y hxy => ⟨x, x, hK x hxy.1, rfl, hxy.2⟩
  have hstep : (W.seen .left .left).InStep := by
    rintro d e k ⟨z, w, -, hd, he⟩ hk
    cases hd.symm.trans he
    exact ⟨k, hk⟩
  -- the run is followed beside itself
  have hself := evaluate_echoes (W := W.seen .left .left) (together_durable (.inl rfl)) hE (.inl rfl) trivial
    trivial False.elim hpairs ((hs.among hσ hσ).mono hpairs) hfrom.among
    (hW.seen .left .left (View.Around.seen _ _) fun _ hk => ⟨_, hk⟩)
    ⟨hstep, fun x hx => hpairs x x ⟨hx, rfl⟩, hl, hl⟩
  change Echoed host C _ _ _ _ _ _ (evaluate (machine host n) σ r W.left) at hself
  cases hrun : evaluate (machine host n) σ r W.left with
  | ok a L =>
      rw [hrun] at hself
      exact .inr (hself.resolve_left id).1
  | error e L =>
      cases e with
      | exhausted => exact .inl ⟨L, rfl⟩
      | failed e =>
          rw [hrun] at hself
          exact .inr ((hself trivial).resolve_left id).1

/-- The value is read on the left, if it is. -/
theorem reading_only {a : Side} (hσ : (reading p r v s).holds a σ)
    (hends : Ends host (fun E => evaluate E σ (a.of r (.param p))) W.left (.ok v L)) :
    (∃ L', evaluate (machine host n) σ (a.of r (.param p)) W.left = .error .exhausted L') ∨
      evaluate (machine host n) σ (a.of r (.param p)) W.left = .ok v L := by
  cases a with
  | left => exact (reading_ends hE hfrom hs hW hinv hσ).imp_right fun h => h.unique hends
  | right =>
      have hread : Ends host (fun E => evaluate E σ (.param p)) W.left (.ok v W.left) :=
        ⟨0, fun m _ => congrFun (evaluate_bound hσ) _⟩
      exact .inr ((congrFun (evaluate_bound hσ) _).trans (hread.unique hends))

end Readable

/-- **A tree that repeats its value is evaluated like the parameter it stands for,** from any two sides. -/
theorem reading_readable (hr : Repeats host r s v t) (hfrom : Tree.From K r) (hs : s.From K) (hv : v.From K)
    {n : Nat} (hE : (machine host n).Echoes host C (reading p r v s).Around (together K t)) :
    Readable host C (reading p r v s).Around (together K t) (machine host n) := by
  rintro V W _ _ σ ρ (rfl | ⟨a, b, rfl⟩) htu hσ hρ
  · exact htu.elim
  obtain ⟨t', u', ⟨ht', hu'⟩, rfl, rfl⟩ := htu
  rw [ht', hu']
  have hσ : (reading p r v s).holds a σ := hσ
  have hρ : (reading p r v s).holds b ρ := hρ
  intro hW hinv
  show Echoed host C _ _ _ W _ _ (evaluate (machine host n) σ (a.of r (.param p)) W.left)
  obtain ⟨hstep, hK, htl, htr⟩ := id hinv
  obtain ⟨L, hL, hLext, hLunspent, hLsame⟩ := hr.side htl hW.unspent.1 hσ
  obtain ⟨R, hR, hRext, hRunspent, hRsame⟩ := hr.side htr hW.unspent.2 hρ
  rcases reading_only hE hfrom hs hW hinv hσ hL with ⟨L', hrun⟩ | hrun
  · rw [hrun]
    trivial
  · rw [hrun]
    obtain ⟨hleft, hle⟩ := hW.moveLeft hLext hLunspent hLsame
    obtain ⟨hboth, hle'⟩ := hleft.moveRight hRext hRunspent
    have hvalue : Coupled W.pairs v v :=
      Coupled.mono (P := .diagonal K) (fun x y hxy => hxy.2 ▸ hK x hxy.1) hv
    have hinv' : (together K t).inv ⟨L, R, W.pairs⟩ := by
      refine ⟨fun {d e g} hde hg => ?_, hK, htl.trans hLext, htr.trans hRext⟩
      have hsame : R.functions[e.id]? = W.right.functions[e.id]? := hRsame _ (hW.older hde).2
      obtain ⟨f, hf⟩ := hstep hde (hsame.symm.trans hg)
      exact ⟨f, hLext.functions hf⟩
    exact .inr ⟨hL, ⟨L, R, W.pairs⟩, v, hle.trans hle', hboth, hinv', rfl, hR, hvalue⟩

/-! ## Substituted trees -/

/-- Parameters other than `p` correspond, and `p` corresponds to itself. -/
theorem Correspondence.under_except {Γ Δ : Correspondence}
    (h : ∀ x y, Γ x y → (x = p ∧ y = p) ∨ (x ≠ p ∧ Δ x y)) : ∀ {ps qs : List Param}, p ∉ ps →
      ps.length = qs.length → ∀ x y, Γ.under ps qs x y → (x = p ∧ y = p) ∨ (x ≠ p ∧ Δ.under ps qs x y)
  | [], [], _, _, x, y, hxy => h x y hxy
  | p' :: ps, q' :: qs, hp, _, x, y, .inl ⟨hx, hy⟩ =>
      .inr ⟨hx ▸ (List.ne_of_not_mem_cons hp).symm, .inl ⟨hx, hy⟩⟩
  | p' :: ps, q' :: qs, hp, hlength, x, y, .inr ⟨hx, hy, hxy⟩ => by
      have hrest := under_except h (List.not_mem_of_not_mem_cons hp) (Nat.succ.inj hlength) x y hxy
      rcases hrest with hxy | ⟨hxp, hxy⟩
      · exact .inl hxy
      · exact .inr ⟨hxp, .inr ⟨hx, hy, hxy⟩⟩

namespace Tree

variable {V : View}

/-- No lambda declares the parameter that is replaced, or one the replacement reads. -/
def Admits (p : Param) (r t : Expr) : Prop := t.Everywhere fun u => ∀ q ∈ u.declared, q ≠ p ∧ q ∉ r.freeParams

section Substitute

set_option linter.unusedSectionVars false

variable (hV : V.replaces r (.param p)) (hdeclares : ∀ q, q ≠ p ∧ q ∉ r.freeParams → V.declares q)

include hV hdeclares

mutual

/-- **A substituted tree is coupled with the tree it was made from,** in a view that puts the replacement in
place of the parameter. -/
theorem Coupled.substitute : ∀ {Γ Δ : Correspondence} {t u : Expr}, Coupled P .plain Γ t u →
    Admits p r t → Admits p r u → (∀ x y, Γ x y → (x = p ∧ y = p) ∨ (x ≠ p ∧ Δ x y)) →
    Coupled P V Δ (substitute p r t) u
  | _, _, _, _, .replaced h, _, _, _ => h.elim
  | _, _, _, _, .literal ty hv, _, _, _ => .literal ty hv
  | _, _, .param x, .param y, .param hxy, _, _, hΓ => by
      unfold Tree.substitute
      rcases hΓ _ _ hxy with ⟨rfl, rfl⟩ | ⟨hx, hxy⟩
      · rw [if_pos rfl]
        exact .replaced hV
      · rw [if_neg hx]
        exact .param hxy
  | _, _, _, _, .staticMember hm, _, _, _ => .staticMember hm
  | _, _, _, _, .member ht hm, hct, hcu, hΓ =>
      .member (ht.substitute (hct.child (List.mem_singleton.2 rfl))
        (hcu.child (List.mem_singleton.2 rfl)) hΓ) hm
  | _, _, _, _, .staticCall hm hts, hct, hcu, hΓ =>
      .staticCall hm (hts.substitute (fun _ hc => hct.child hc) (fun _ hc => hcu.child hc) hΓ)
  | _, _, _, _, .call ht hm hts, hct, hcu, hΓ =>
      .call (ht.substitute (hct.child (List.mem_cons_self ..)) (hcu.child (List.mem_cons_self ..)) hΓ) hm
        (hts.substitute (fun _ hc => hct.child (List.mem_cons_of_mem _ hc))
          (fun _ hc => hcu.child (List.mem_cons_of_mem _ hc)) hΓ)
  | _, _, _, _, .binary op ht ht' hm, hct, hcu, hΓ =>
      .binary op
        (ht.substitute (hct.child (List.mem_cons_self ..)) (hcu.child (List.mem_cons_self ..)) hΓ)
        (ht'.substitute (hct.child (List.mem_cons_of_mem _ (List.mem_singleton.2 rfl)))
          (hcu.child (List.mem_cons_of_mem _ (List.mem_singleton.2 rfl))) hΓ) hm
  | _, _, _, _, .unary op ty ht hm, hct, hcu, hΓ =>
      .unary op ty (ht.substitute (hct.child (List.mem_singleton.2 rfl))
        (hcu.child (List.mem_singleton.2 rfl)) hΓ) hm
  | _, _, .lambda ps t, .lambda qs u, .lambda hlength _ _ ht, hct, hcu, hΓ => by
      have hps : ∀ q ∈ ps, q ≠ p ∧ q ∉ r.freeParams := hct.here
      have hqs : ∀ q ∈ qs, q ≠ p ∧ q ∉ r.freeParams := hcu.here
      have hp : p ∉ ps := fun h => (hps p h).1 rfl
      have hbody := ht.substitute (hct.child (List.mem_singleton.2 rfl))
        (hcu.child (List.mem_singleton.2 rfl))
        (Correspondence.under_except hΓ (fun h => hp (List.mem_reverse.1 h)) (by simpa using hlength))
      unfold Tree.substitute
      rw [redeclare_of_not_mem hp]
      exact .lambda hlength (fun q hq => hdeclares q (hps q hq)) (fun q hq => hdeclares q (hqs q hq)) hbody
  | _, _, _, _, .invoke ht hts, hct, hcu, hΓ =>
      .invoke (ht.substitute (hct.child (List.mem_cons_self ..)) (hcu.child (List.mem_cons_self ..)) hΓ)
        (hts.substitute (fun _ hc => hct.child (List.mem_cons_of_mem _ hc))
          (fun _ hc => hcu.child (List.mem_cons_of_mem _ hc)) hΓ)
  | _, _, _, _, .conditional ht ht₁ ht₂, hct, hcu, hΓ =>
      .conditional
        (ht.substitute (hct.child (List.mem_cons_self ..)) (hcu.child (List.mem_cons_self ..)) hΓ)
        (ht₁.substitute (hct.child (List.mem_cons_of_mem _ (List.mem_cons_self ..)))
          (hcu.child (List.mem_cons_of_mem _ (List.mem_cons_self ..))) hΓ)
        (ht₂.substitute
          (hct.child (List.mem_cons_of_mem _ (List.mem_cons_of_mem _ (List.mem_singleton.2 rfl))))
          (hcu.child (List.mem_cons_of_mem _ (List.mem_cons_of_mem _ (List.mem_singleton.2 rfl)))) hΓ)

theorem AllCoupled.substitute : ∀ {Γ Δ : Correspondence} {ts us : List Expr},
    AllCoupled P .plain Γ ts us → (∀ t ∈ ts, Admits p r t) → (∀ u ∈ us, Admits p r u) →
    (∀ x y, Γ x y → (x = p ∧ y = p) ∨ (x ≠ p ∧ Δ x y)) → AllCoupled P V Δ (substituteAll p r ts) us
  | _, _, _, _, .nil, _, _, _ => .nil
  | _, _, _, _, .cons ht hts, hct, hcu, hΓ =>
      .cons (ht.substitute (hct _ (List.mem_cons_self ..)) (hcu _ (List.mem_cons_self ..)) hΓ)
        (hts.substitute (fun t ht => hct t (List.mem_cons_of_mem _ ht))
          (fun u hu => hcu u (List.mem_cons_of_mem _ hu)) hΓ)

end

end Substitute

/-- Where no lambda declares what must not be declared. -/
theorem Admits.of_undeclared {t : Expr} (hp : t.Undeclared p) (hfree : ∀ q ∈ r.freeParams, t.Undeclared q) :
    Admits p r t := by
  have hdeclared : ∀ {q : Param} {u : Expr}, u.Undeclared q → q ∉ u.declared := fun {q u} hu => by
    cases u with
    | lambda ps b => exact hu.here ps b rfl
    | _ => exact List.not_mem_nil
  induction t using childwise with
  | step t ih =>
      refine everywhere_iff.2 ⟨fun q hq => ⟨?_, fun hqr => hdeclared (hfree q hqr) hq⟩, fun c hc =>
        ih c hc (hp.child hc) fun q hq => (hfree q hq).child hc⟩
      rintro rfl
      exact hdeclared hp hq

end Tree

end DualForm
