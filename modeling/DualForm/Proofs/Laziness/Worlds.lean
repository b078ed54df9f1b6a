import DualForm.Proofs.Laziness.Related
import Mathlib.Order.Basic

/-!
# Worlds

A world holds the stores of two runs and says which objects of one run stand for which objects of the other.

* `World` — two stores, and pairs of functions and duals; the function forms of paired duals stand for each
  other, too (`World.function`).
* `World.Sound G W` — paired functions do the same, paired duals have been made in the same way, and what is
  identical in one run is identical in the other; everything in `G` is paired with itself.
* `V ≤ W` — `W` is a later world than `V`; `Quiet V W` — and no tree form has been published since.
* `World.seen` — the world from other sides: the runs exchanged, or one run beside itself.
* `World.move` — the world with the store of one run replaced by a later one.

Principal results: `Sound.move`, `Sound.addFunc`, `Sound.addDual` — a sound world stays sound when one run
goes on alone, and when both runs make a function or a dual; `Sound.rewind` — and when one of them returns
to an earlier store; `Sound.function_same` — functions that stand for each other are identical on
one side exactly if they are so on the other.
-/

namespace DualForm

/-- The stores of two runs, and the objects that stand for each other. -/
structure World where
  left : Store
  right : Store
  funcs : Func → Func → Prop
  duals : Dual → Dual → Prop

namespace World

variable (W : World)

/-- The store of a run. -/
def store (a : Side) : Store := a.of W.left W.right

/-- The duals of a run that stand for others. -/
def known (a : Side) (d : Dual) : Prop := ∃ x y, W.duals x y ∧ a.of x y = d

/-- Functions that stand for each other: by themselves, or as forms of duals that do. -/
def function (f g : Func) : Prop :=
  W.funcs f g ∨ ∃ d e, W.duals d e ∧ W.left.functions[d.id]? = some f ∧ W.right.functions[e.id]? = some g

/-- Values that stand for each other. -/
abbrev value : Value → Value → Prop := Related W.function W.duals

/-- Lists of values that stand for each other. -/
abbrev values : List Value → List Value → Prop := RelatedAll W.function W.duals

/-- Scopes with values that stand for each other. -/
abbrev scope : Scope → Scope → Prop := ScopeRelated W.function W.duals

/-- The second world is a later one. -/
structure Later (V W : World) : Prop where
  funcs : ∀ {f g}, V.funcs f g → W.funcs f g
  duals : ∀ {d e}, V.duals d e → W.duals d e
  grown : ∀ a, Grown (V.known a) (V.store a) (W.store a)

variable {W}

theorem known_of (a : Side) {d e : Dual} (h : W.duals d e) : W.known a (a.of d e) := ⟨d, e, h, rfl⟩

theorem Later.known {V W : World} (h : Later V W) (a : Side) (d : Dual) (hd : V.known a d) : W.known a d := by
  obtain ⟨x, y, hxy, rfl⟩ := hd
  exact known_of a (h.duals hxy)

instance : Preorder World where
  le := Later
  le_refl W := ⟨id, id, fun _ => .refl _⟩
  le_trans U V W h k := ⟨fun x => k.funcs (h.funcs x), fun x => k.duals (h.duals x),
    fun a => (h.grown a).trans (k.grown a) (h.known a)⟩

variable {V : World}

theorem Later.function (h : V ≤ W) (f g : Func) (hf : V.function f g) : W.function f g := by
  rcases hf with hf | ⟨d, e, hde, hd, he⟩
  · exact .inl (h.funcs hf)
  · exact .inr ⟨d, e, h.duals hde, (h.grown .left).functions hd, (h.grown .right).functions he⟩

theorem Later.value (h : V ≤ W) {v w : Value} (hv : V.value v w) : W.value v w :=
  hv.mono (Later.function h) fun _ _ => h.duals

theorem Later.values (h : V ≤ W) {vs ws : List Value} (hvs : V.values vs ws) : W.values vs ws :=
  hvs.mono (Later.function h) fun _ _ => h.duals

theorem Later.scope (h : V ≤ W) {σ ρ : Scope} (hσ : V.scope σ ρ) : W.scope σ ρ :=
  hσ.mono (Later.function h) fun _ _ => h.duals

end World

/-- Duals that stand for each other. -/
structure DualRelated (G : Ground) (F : Func → Func → Prop) (D : Dual → Dual → Prop) (d e : Dual) :
    Prop where
  kind : d.kind = e.kind
  source : d.source = e.source
  result : d.result = e.result
  origin : OriginRelated G F D d.origin e.origin

/-- The pairs of a world are what they should be. -/
structure World.Sound (G : Ground) (W : World) : Prop where
  given_func : ∀ {f}, G.funcs f → W.funcs f f
  given_dual : ∀ {d}, G.duals d → W.duals d d
  pedigree : ∀ a, Pedigree (W.known a)
  forms : ∀ a, FunctionForms (W.known a) (W.store a)
  func : ∀ {f g}, W.funcs f g → f.arity = g.arity ∧ CodeRelated G W.function W.duals f.code g.code
  older : ∀ {f g}, W.funcs f g → ∀ a : Side, (a.of f g).id < (W.store a).nextId
  /-- Function forms that have been made are paired by their duals only. -/
  apart : ∀ {f g}, W.funcs f g → ∀ (a : Side) {d h}, W.known a d → d.origin.Made →
    (W.store a).functions[d.id]? = some h → h.id ≠ (a.of f g).id
  func_same : ∀ {f g f' g'}, W.funcs f g → W.funcs f' g' → (f.id = f'.id ↔ g.id = g'.id)
  dual : ∀ {d e}, W.duals d e → DualRelated G W.funcs W.duals d e
  dual_same : ∀ {d e d' e'}, W.duals d e → W.duals d' e' → (d.id = d'.id ↔ e.id = e'.id)

/-- No tree form has been published since the first world. -/
structure Quiet (V W : World) : Prop where
  trees : ∀ a, (W.store a).trees = (V.store a).trees
  duals : ∀ {d e}, W.duals d e → V.duals d e ∨ ∀ a, (V.store a).trees[(a.of d e).id]? = none

namespace World

variable {G : Ground} {V W : World} {a b : Side}

/-! ## Functions and values in a sound world -/

namespace Sound

theorem given_value (h : W.Sound G) {v : Value} (hv : Value.Given G v) : W.value v v :=
  Value.Within.related (fun _ hf => .inl (h.given_func hf)) (fun _ hd => h.given_dual hd) hv

/-- The same dual on one side is the same dual on the other. -/
theorem dual_eq (h : W.Sound G) {d e d' e' : Dual} (hde : W.duals d e) (hde' : W.duals d' e') :
    d = d' ↔ e = e' := by
  constructor
  · rintro rfl
    exact (h.pedigree .right).unique (known_of .right hde) (known_of .right hde')
      ((h.dual_same hde hde').1 rfl)
  · rintro rfl
    exact (h.pedigree .left).unique (known_of .left hde) (known_of .left hde')
      ((h.dual_same hde hde').2 rfl)

/-- Function forms of duals that stand for each other: both have been made, of forms that stand for each
other, or both have been supplied. -/
theorem forms_related (h : W.Sound G) {d e : Dual} {f g : Func} (hde : W.duals d e)
    (hf : W.left.functions[d.id]? = some f) (hg : W.right.functions[e.id]? = some g) :
    W.funcs f g ∨ (d.origin.Made ∧ e.origin.Made ∧ f.arity = g.arity ∧
      CodeRelated G W.function W.duals f.code g.code) := by
  have horigin := (h.dual hde).origin
  have hleft : d.FormIn W.left f := (h.forms .left).form (known_of .left hde) hf
  have hright : e.FormIn W.right g := (h.forms .right).form (known_of .right hde) hg
  generalize ho : d.origin = o at horigin
  generalize ho' : e.origin = o' at horigin
  cases hleft with
  | compiled hc =>
      cases hright with
      | compiled hc' =>
          rw [← ho, ← ho', hc, hc'] at horigin
          cases horigin with
          | compiled hcc => exact .inl hcc.func
      | made hmade' =>
          have hmade := horigin.made.2 (ho' ▸ hmade')
          rw [← ho, hc] at hmade
          exact hmade.elim
  | @made _ fs hmade _ harity hparts hcode =>
      cases hright with
      | compiled hc' =>
          have hmade' := horigin.made.1 (ho ▸ hmade)
          rw [← ho', hc'] at hmade'
          exact hmade'.elim
      | @made _ gs hmade' _ harity' hparts' hcode' =>
          rw [ho] at hmade harity hparts hcode
          rw [ho'] at hmade' harity' hparts' hcode'
          refine .inr ⟨hmade, hmade', harity.trans (horigin.arity.trans harity'.symm), ?_⟩
          rw [hcode, hcode']
          refine horigin.code (fun _ _ => .inl) hmade hparts.length_eq.symm ?_
          -- the forms of the parts stand for each other because the parts do
          have hpaired : ∀ {ps qs : List Dual}, List.Forall₂ W.duals ps qs → ∀ {fs gs : List Func},
              List.Forall₂ (fun p k => W.left.functions[p.id]? = some k) ps fs →
              List.Forall₂ (fun p k => W.right.functions[p.id]? = some k) qs gs →
              List.Forall₂ W.function fs gs := by
            intro ps qs hpq
            induction hpq with
            | nil =>
                intro fs gs hfs hgs
                cases hfs
                cases hgs
                exact .nil
            | cons hpq _ ih =>
                intro fs gs hfs hgs
                cases hfs with
                | cons hp hps =>
                    cases hgs with
                    | cons hq hqs => exact .cons (.inr ⟨_, _, hpq, hp, hq⟩) (ih hps hqs)
          exact hpaired horigin.parts hparts hparts'

/-- Functions that stand for each other do the same. -/
theorem function_related (h : W.Sound G) {f g : Func} (hfg : W.function f g) :
    f.arity = g.arity ∧ CodeRelated G W.function W.duals f.code g.code := by
  rcases hfg with hfg | ⟨d, e, hde, hf, hg⟩
  · exact h.func hfg
  · rcases h.forms_related hde hf hg with hfg | ⟨_, _, hfg⟩
    · exact h.func hfg
    · exact hfg

/-- Functions that stand for each other do so by themselves, or as forms that have been made. -/
theorem function_cases (h : W.Sound G) {f g : Func} (hfg : W.function f g) :
    W.funcs f g ∨ ∃ d e, W.duals d e ∧ d.origin.Made ∧ e.origin.Made ∧
      W.left.functions[d.id]? = some f ∧ W.right.functions[e.id]? = some g := by
  rcases hfg with hfg | ⟨d, e, hde, hf, hg⟩
  · exact .inl hfg
  · rcases h.forms_related hde hf hg with hfg | ⟨hd, he, _⟩
    · exact .inl hfg
    · exact .inr ⟨d, e, hde, hd, he, hf, hg⟩

/-- **Functions that stand for each other are identical on one side exactly if they are so on the other.** -/
theorem function_same (h : W.Sound G) {f g f' g' : Func} (hfg : W.function f g)
    (hfg' : W.function f' g') : f.id = f'.id ↔ g.id = g'.id := by
  rcases h.function_cases hfg with hfg | ⟨d, e, hde, hd, he, hf, hg⟩
  · rcases h.function_cases hfg' with hfg' | ⟨d', e', hde', hd', he', hf', hg'⟩
    · exact h.func_same hfg hfg'
    · have hl : f'.id ≠ f.id := h.apart hfg .left (known_of .left hde') hd' hf'
      have hr : g'.id ≠ g.id := h.apart hfg .right (known_of .right hde') he' hg'
      exact ⟨fun hid => absurd hid.symm hl, fun hid => absurd hid.symm hr⟩
  · rcases h.function_cases hfg' with hfg' | ⟨d', e', hde', hd', he', hf', hg'⟩
    · have hl : f.id ≠ f'.id := h.apart hfg' .left (known_of .left hde) hd hf
      have hr : g.id ≠ g'.id := h.apart hfg' .right (known_of .right hde) he hg
      exact ⟨fun hid => absurd hid hl, fun hid => absurd hid hr⟩
    · constructor
      · intro hid
        have hdd : d = d' :=
          (h.forms .left).apart (known_of .left hde) (known_of .left hde') hd hd' hf hf' hid
        rw [(h.dual_eq hde hde').1 hdd, hg'] at hg
        cases hg
        rfl
      · intro hid
        have hee : e = e' :=
          (h.forms .right).apart (known_of .right hde) (known_of .right hde') he he' hg hg' hid
        rw [(h.dual_eq hde hde').2 hee, hf'] at hf
        cases hf
        rfl

end Sound

/-! ## Other sides -/

/-- The world from other sides. -/
def seen (W : World) (a b : Side) : World where
  left := W.store a
  right := W.store b
  funcs f g := ∃ x y, W.funcs x y ∧ a.of x y = f ∧ b.of x y = g
  duals d e := ∃ x y, W.duals x y ∧ a.of x y = d ∧ b.of x y = e

theorem seen_store (W : World) (a b c : Side) : (W.seen a b).store c = W.store (c.of a b) := by
  cases c <;> rfl

theorem of_of {α : Type} (a b c : Side) (x y : α) : c.of (a.of x y) (b.of x y) = (c.of a b).of x y := by
  cases c <;> rfl

theorem seen_known (W : World) (a b c : Side) : (W.seen a b).known c = W.known (c.of a b) := by
  funext d
  refine propext ⟨?_, ?_⟩
  · rintro ⟨_, _, ⟨x, y, hxy, rfl, rfl⟩, rfl⟩
    exact ⟨x, y, hxy, (of_of a b c x y).symm⟩
  · rintro ⟨x, y, hxy, rfl⟩
    exact ⟨_, _, ⟨x, y, hxy, rfl, rfl⟩, of_of a b c x y⟩

theorem seen_function {f g : Func} (h : W.function f g) : (W.seen a b).function (a.of f g) (b.of f g) := by
  rcases h with h | ⟨d, e, hde, hf, hg⟩
  · exact .inl ⟨f, g, h, rfl, rfl⟩
  · have hread : ∀ c : Side, (W.store c).functions[(c.of d e).id]? = some (c.of f g) := by
      intro c
      cases c with
      | left => exact hf
      | right => exact hg
    exact .inr ⟨_, _, ⟨d, e, hde, rfl, rfl⟩, hread a, hread b⟩

/-- A sound world is sound from other sides, too. -/
theorem Sound.seen (h : W.Sound G) (a b : Side) : (W.seen a b).Sound G where
  given_func hf := ⟨_, _, h.given_func hf, by cases a <;> rfl, by cases b <;> rfl⟩
  given_dual hd := ⟨_, _, h.given_dual hd, by cases a <;> rfl, by cases b <;> rfl⟩
  pedigree c := by
    rw [seen_known]
    exact h.pedigree (c.of a b)
  forms c := by
    rw [seen_store, seen_known]
    exact h.forms (c.of a b)
  func := by
    rintro _ _ ⟨f, g, hfg, rfl, rfl⟩
    obtain ⟨harity, hcode⟩ := h.func hfg
    have hcode : CodeRelated G (W.seen a b).function (W.seen a b).duals (a.of f.code g.code)
        (b.of f.code g.code) :=
      hcode.seen (fun _ _ => seen_function) fun d e hde => ⟨d, e, hde, rfl, rfl⟩
    cases a <;> cases b
    · exact ⟨rfl, hcode⟩
    · exact ⟨harity, hcode⟩
    · exact ⟨harity.symm, hcode⟩
    · exact ⟨rfl, hcode⟩
  older := by
    rintro _ _ ⟨f, g, hfg, rfl, rfl⟩ c
    rw [seen_store, of_of]
    exact h.older hfg (c.of a b)
  apart := by
    rintro _ _ ⟨f, g, hfg, rfl, rfl⟩ c d k hd hmade hk
    rw [seen_store] at hk
    rw [seen_known] at hd
    rw [of_of]
    exact h.apart hfg (c.of a b) hd hmade hk
  func_same := by
    rintro _ _ _ _ ⟨f, g, hfg, rfl, rfl⟩ ⟨f', g', hfg', rfl, rfl⟩
    have hsame := h.func_same hfg hfg'
    cases a <;> cases b
    · exact Iff.rfl
    · exact hsame
    · exact hsame.symm
    · exact Iff.rfl
  dual := by
    rintro _ _ ⟨d, e, hde, rfl, rfl⟩
    obtain ⟨hkind, hsource, hresult, horigin⟩ := h.dual hde
    have horigin : OriginRelated G (W.seen a b).funcs (W.seen a b).duals (a.of d.origin e.origin)
        (b.of d.origin e.origin) :=
      horigin.seen (fun f g hfg => ⟨f, g, hfg, rfl, rfl⟩) fun d e hde => ⟨d, e, hde, rfl, rfl⟩
    cases a <;> cases b
    · exact ⟨rfl, rfl, rfl, horigin⟩
    · exact ⟨hkind, hsource, hresult, horigin⟩
    · exact ⟨hkind.symm, hsource.symm, hresult.symm, horigin⟩
    · exact ⟨rfl, rfl, rfl, horigin⟩
  dual_same := by
    rintro _ _ _ _ ⟨d, e, hde, rfl, rfl⟩ ⟨d', e', hde', rfl, rfl⟩
    have hsame := h.dual_same hde hde'
    cases a <;> cases b
    · exact Iff.rfl
    · exact hsame
    · exact hsame.symm
    · exact Iff.rfl

/-! ## One run goes on -/

/-- The world with another store for one run. -/
def move (W : World) (a : Side) (t : Store) : World :=
  match a with
  | .left => { W with left := t }
  | .right => { W with right := t }

theorem move_self (W : World) (a : Side) (t : Store) : (W.move a t).store a = t := by cases a <;> rfl

theorem move_known (W : World) (a b : Side) (t : Store) : (W.move a t).known b = W.known b := by
  cases a <;> rfl

theorem move_funcs (W : World) (a : Side) (t : Store) : (W.move a t).funcs = W.funcs := by cases a <;> rfl

theorem move_duals (W : World) (a : Side) (t : Store) : (W.move a t).duals = W.duals := by cases a <;> rfl

/-- The other store stays. -/
theorem move_grown {t : Store} (hgrown : Grown (W.known a) (W.store a) t) (b : Side) :
    Grown (W.known b) (W.store b) ((W.move a t).store b) := by
  cases a <;> cases b
  · exact hgrown
  · exact .refl _
  · exact .refl _
  · exact hgrown

/-- **A sound world stays sound when one run goes on alone.** -/
theorem Sound.move (h : W.Sound G) {t : Store} (hforms : FunctionForms (W.known a) t)
    (hgrown : Grown (W.known a) (W.store a) t) : (W.move a t).Sound G ∧ W ≤ W.move a t := by
  have hle : W ≤ W.move a t := by
    refine ⟨fun hf => ?_, fun hd => ?_, move_grown hgrown⟩
    · rw [move_funcs]; exact hf
    · rw [move_duals]; exact hd
  refine ⟨?_, hle⟩
  constructor
  · intro f hf
    rw [move_funcs]; exact h.given_func hf
  · intro d hd
    rw [move_duals]; exact h.given_dual hd
  · intro b
    rw [move_known]; exact h.pedigree b
  · intro b
    rw [move_known]
    cases a <;> cases b
    · exact hforms
    · exact h.forms .right
    · exact h.forms .left
    · exact hforms
  · intro f g hfg
    rw [move_funcs] at hfg
    obtain ⟨harity, hcode⟩ := h.func hfg
    exact ⟨harity, hcode.mono (Later.function hle) fun _ _ => hle.duals⟩
  · intro f g hfg b
    rw [move_funcs] at hfg
    exact Nat.lt_of_lt_of_le (h.older hfg b) (move_grown hgrown b).nextId
  · intro f g hfg b d k hd hmade hk
    rw [move_funcs] at hfg
    rw [move_known] at hd
    rcases (move_grown hgrown b).made hd hmade hk with hk | hid
    · exact h.apart hfg b hd hmade hk
    · exact Nat.ne_of_gt (Nat.lt_of_lt_of_le (h.older hfg b) hid)
  · intro f g f' g' hfg hfg'
    rw [move_funcs] at hfg hfg'
    exact h.func_same hfg hfg'
  · intro d e hde
    rw [move_duals] at hde ⊢
    rw [move_funcs]
    exact h.dual hde
  · intro d e d' e' hde hde'
    rw [move_duals] at hde hde'
    exact h.dual_same hde hde'

/-- **A sound world stays sound when one of the runs returns to an earlier store.** -/
theorem Sound.rewind (hV : V.Sound G) (hW : W.Sound G) (h : V ≤ W) (a : Side) :
    (V.move a (W.store a)).Sound G ∧ V ≤ V.move a (W.store a) :=
  hV.move ((hW.forms a).mono (h.known a)) (h.grown a)

/-! ## New identities, functions and duals -/

/-- The world with other stores. -/
def withStores (W : World) (s t : Store) : World := { W with left := s, right := t }

/-- Both runs go on, and publish nothing. -/
theorem Sound.idle (h : W.Sound G) {s t : Store} (hs : Idle W.left s) (ht : Idle W.right t) :
    (W.withStores s t).Sound G ∧ W ≤ W.withStores s t ∧ Quiet W (W.withStores s t) := by
  obtain ⟨hleft, hle⟩ := h.move (a := .left) ((h.forms .left).idle hs) (.idle hs)
  obtain ⟨hboth, hle'⟩ := hleft.move (a := .right) ((h.forms .right).idle ht) (.idle ht)
  refine ⟨hboth, hle.trans hle', fun a => ?_, fun hde => .inl hde⟩
  cases a with
  | left => exact hs.trees
  | right => exact ht.trees

/-- The world after both runs have given out an identity. -/
def identities (W : World) : World :=
  W.withStores { W.left with nextId := W.left.nextId + 1 } { W.right with nextId := W.right.nextId + 1 }

theorem identities_store (W : World) (a : Side) :
    W.identities.store a = { W.store a with nextId := (W.store a).nextId + 1 } := by cases a <;> rfl

/-- One more pair of functions. -/
def withFunc (W : World) (f g : Func) : World :=
  { W with funcs := fun x y => W.funcs x y ∨ (x = f ∧ y = g) }

theorem Sound.withFunc (h : W.Sound G) {f g : Func} (harity : f.arity = g.arity)
    (hcode : CodeRelated G W.function W.duals f.code g.code)
    (holder : ∀ a : Side, (a.of f g).id < (W.store a).nextId)
    (hnew : ∀ (a : Side) x y, W.funcs x y → (a.of x y).id ≠ (a.of f g).id)
    (hforms : ∀ (a : Side) d k, W.known a d → d.origin.Made →
      (W.store a).functions[d.id]? = some k → k.id ≠ (a.of f g).id) :
    (W.withFunc f g).Sound G ∧ W ≤ W.withFunc f g := by
  have hle : W ≤ W.withFunc f g := ⟨.inl, id, fun a => .refl _⟩
  refine ⟨⟨fun hf => .inl (h.given_func hf), h.given_dual, h.pedigree, h.forms, ?_, ?_, ?_, ?_, ?_,
    h.dual_same⟩, hle⟩
  · rintro x y (hxy | ⟨rfl, rfl⟩)
    · obtain ⟨harity, hcode⟩ := h.func hxy
      exact ⟨harity, hcode.mono (Later.function hle) fun _ _ => id⟩
    · exact ⟨harity, hcode.mono (Later.function hle) fun _ _ => id⟩
  · rintro x y (hxy | ⟨rfl, rfl⟩) a
    · exact h.older hxy a
    · exact holder a
  · rintro x y (hxy | ⟨rfl, rfl⟩) a d k hd hmade hk
    · exact h.apart hxy a hd hmade hk
    · exact hforms a d k hd hmade hk
  · rintro x y x' y' (hxy | ⟨rfl, rfl⟩) (hxy' | ⟨rfl, rfl⟩)
    · exact h.func_same hxy hxy'
    · exact ⟨fun hid => absurd hid (hnew .left _ _ hxy), fun hid => absurd hid (hnew .right _ _ hxy)⟩
    · exact ⟨fun hid => absurd hid.symm (hnew .left _ _ hxy'),
        fun hid => absurd hid.symm (hnew .right _ _ hxy')⟩
    · exact ⟨fun _ => rfl, fun _ => rfl⟩
  · intro d e hde
    obtain ⟨hkind, hsource, hresult, horigin⟩ := h.dual hde
    exact ⟨hkind, hsource, hresult, horigin.mono (fun _ _ => .inl) fun _ _ => id⟩

/-- The world after both runs have made a function. -/
def addFunc (W : World) (arity : Nat) (c c' : Code) : World :=
  W.identities.withFunc ⟨W.left.nextId, arity, c⟩ ⟨W.right.nextId, arity, c'⟩

/-- **Both runs make a function that does the same.** -/
theorem Sound.addFunc (h : W.Sound G) (arity : Nat) {c c' : Code}
    (hc : CodeRelated G W.function W.duals c c') :
    (W.addFunc arity c c').Sound G ∧ W ≤ W.addFunc arity c c' ∧ Quiet W (W.addFunc arity c c') := by
  obtain ⟨hid, hle, hquiet⟩ : W.identities.Sound G ∧ W ≤ W.identities ∧ Quiet W W.identities :=
    h.idle (.identity _) (.identity _)
  have hof : ∀ a : Side, (a.of (Func.mk W.left.nextId arity c) (Func.mk W.right.nextId arity c')).id =
      (W.store a).nextId := fun a => by cases a <;> rfl
  obtain ⟨hsound, hle'⟩ := hid.withFunc (f := ⟨W.left.nextId, arity, c⟩)
    (g := ⟨W.right.nextId, arity, c'⟩) rfl (hc.mono (Later.function hle) fun _ _ => hle.duals)
    (fun a => by rw [hof, identities_store]; exact Nat.lt_succ_self _)
    (fun a x y hxy => by rw [hof]; exact Nat.ne_of_lt (h.older hxy a))
    (fun a d k hd hmade hk => by
      rw [identities_store] at hk
      rw [hof]
      exact Nat.ne_of_lt ((h.forms a).made_older hd hmade hk))
  exact ⟨hsound, hle.trans hle', hquiet.trees, .inl⟩

/-- One more pair of duals. -/
def withDual (W : World) (d e : Dual) : World :=
  { W with duals := fun x y => W.duals x y ∨ (x = d ∧ y = e) }

theorem withDual_known {d e x : Dual} (h : (W.withDual d e).known a x) : W.known a x ∨ x = a.of d e := by
  obtain ⟨x, y, hxy | ⟨rfl, rfl⟩, rfl⟩ := h
  · exact .inl ⟨x, y, hxy, rfl⟩
  · exact .inr rfl

theorem Sound.withDual (h : W.Sound G) {d e : Dual} (hde : DualRelated G W.funcs W.duals d e)
    (holder : ∀ a : Side, (a.of d e).id < (W.store a).nextId)
    (hnew : ∀ (a : Side) x, W.known a x → x.id < (a.of d e).id)
    (hempty : ∀ a : Side, (W.store a).functions[(a.of d e).id]? = none) :
    (W.withDual d e).Sound G ∧ W ≤ W.withDual d e := by
  have hle : W ≤ W.withDual d e := ⟨id, .inl, fun a => .refl _⟩
  have hunread : ∀ (a : Side) {k}, (W.store a).functions[(a.of d e).id]? ≠ some k := fun a k hk => by
    rw [hempty a] at hk; cases hk
  refine ⟨⟨h.given_func, fun hd => .inl (h.given_dual hd), fun a => ⟨?_, ?_, ?_⟩,
    fun a => ⟨(h.forms a).fresh, ?_, ?_, ?_⟩, ?_, h.older, ?_, h.func_same, ?_, ?_⟩, hle⟩
  · intro x p hx hp
    rcases withDual_known hx with hx | rfl
    · obtain ⟨hp, hlt⟩ := (h.pedigree a).part hx hp
      exact ⟨hle.known a _ hp, hlt⟩
    · have hp : p ∈ (a.of d.origin e.origin).parts := by cases a <;> exact hp
      obtain hp : W.known a p := hde.origin.part a hp
      exact ⟨hle.known a _ hp, hnew a p hp⟩
  · intro x y hx hy hid
    rcases withDual_known hx with hx | rfl
    · rcases withDual_known hy with hy | rfl
      · exact (h.pedigree a).unique hx hy hid
      · exact absurd hid (Nat.ne_of_lt (hnew a x hx))
    · rcases withDual_known hy with hy | rfl
      · exact absurd hid.symm (Nat.ne_of_lt (hnew a y hy))
      · rfl
  · intro x hx
    rcases withDual_known hx with hx | rfl
    · exact (h.pedigree a).kind hx
    · have hkind := hde.origin.kind a
      cases a <;> exact hkind
  · intro x hx
    rcases withDual_known hx with hx | rfl
    · exact (h.forms a).older hx
    · exact holder a
  · intro x k hx hk
    rcases withDual_known hx with hx | rfl
    · exact (h.forms a).form hx hk
    · exact absurd hk (hunread a)
  · intro x y k k' hx hy hmx hmy hk hk' hid
    rcases withDual_known hx with hx | rfl
    · rcases withDual_known hy with hy | rfl
      · exact (h.forms a).apart hx hy hmx hmy hk hk' hid
      · exact absurd hk' (hunread a)
    · exact absurd hk (hunread a)
  · intro f g hfg
    obtain ⟨harity, hcode⟩ := h.func hfg
    exact ⟨harity, hcode.mono (Later.function hle) fun _ _ => .inl⟩
  · intro f g hfg a x k hx hmade hk
    rcases withDual_known hx with hx | rfl
    · exact h.apart hfg a hx hmade hk
    · exact absurd hk (hunread a)
  · rintro x y (hxy | ⟨rfl, rfl⟩)
    · obtain ⟨hkind, hsource, hresult, horigin⟩ := h.dual hxy
      exact ⟨hkind, hsource, hresult, horigin.mono (fun _ _ => id) fun _ _ => .inl⟩
    · exact ⟨hde.kind, hde.source, hde.result, hde.origin.mono (fun _ _ => id) fun _ _ => .inl⟩
  · rintro x y x' y' (hxy | ⟨rfl, rfl⟩) (hxy' | ⟨rfl, rfl⟩)
    · exact h.dual_same hxy hxy'
    · exact ⟨fun hid => absurd hid (Nat.ne_of_lt (hnew .left x (known_of .left hxy))),
        fun hid => absurd hid (Nat.ne_of_lt (hnew .right y (known_of .right hxy)))⟩
    · exact ⟨fun hid => absurd hid.symm (Nat.ne_of_lt (hnew .left x' (known_of .left hxy'))),
        fun hid => absurd hid.symm (Nat.ne_of_lt (hnew .right y' (known_of .right hxy')))⟩
    · exact ⟨fun _ => rfl, fun _ => rfl⟩

/-- The world after both runs have made a dual. -/
def addDual (W : World) (kind : DualKind) (source result : Ty) (o o' : Origin) : World :=
  W.identities.withDual ⟨W.left.nextId, kind, source, result, o⟩ ⟨W.right.nextId, kind, source, result, o'⟩

/-- **Both runs make a dual in the same way.** -/
theorem Sound.addDual (h : W.Sound G) (kind : DualKind) (source result : Ty) {o o' : Origin}
    (ho : OriginRelated G W.funcs W.duals o o') :
    let V := W.addDual kind source result o o'
    V.Sound G ∧ W ≤ V ∧ Quiet W V := by
  obtain ⟨hid, hle, hquiet⟩ : W.identities.Sound G ∧ W ≤ W.identities ∧ Quiet W W.identities :=
    h.idle (.identity _) (.identity _)
  have hof : ∀ a : Side, (a.of (Dual.mk W.left.nextId kind source result o)
      (Dual.mk W.right.nextId kind source result o')).id = (W.store a).nextId := fun a => by cases a <;> rfl
  have hknown : ∀ a x, W.identities.known a x → W.known a x := fun a x hx => hx
  obtain ⟨hsound, hle'⟩ := hid.withDual (d := ⟨W.left.nextId, kind, source, result, o⟩)
    (e := ⟨W.right.nextId, kind, source, result, o'⟩) ⟨rfl, rfl, rfl, ho⟩
    (fun a => by rw [hof, identities_store]; exact Nat.lt_succ_self _)
    (fun a x hx => by rw [hof]; exact (h.forms a).older (hknown a x hx))
    (fun a => by
      rw [hof, identities_store]
      exact (h.forms a).fresh.functions _ (Nat.le_refl _))
  refine ⟨hsound, hle.trans hle', hquiet.trees, ?_⟩
  rintro d e (hde | ⟨rfl, rfl⟩)
  · exact .inl hde
  · refine .inr fun a => ?_
    rw [hof]
    exact (h.forms a).fresh.trees _ (Nat.le_refl _)

end World

end DualForm
