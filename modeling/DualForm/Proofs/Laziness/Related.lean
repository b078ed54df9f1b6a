import DualForm.Proofs.Dual.Simulation
import DualForm.Proofs.Laziness.Functions

/-!
# Values, functions and duals of two runs

Two runs of the machine give out different identities.

* `Ground` — the functions and duals given before both runs, and the routines of host functions;
  `Value.Within`, `Tree.Given` — values that hold given objects only, and trees that hold such values and
  read and call nothing else.
* `Side` — one of the two runs.
* `Related F D v w` — values that are the same up to the functions paired by `F` and the duals paired by `D`.
* `CodeRelated`, `OriginRelated` — functions that do the same, and duals made in the same way, up to such
  pairs.

Principal results: one lemma for each way to look at values, functions and duals (`Related.seen`,
`RelatedFields.fieldOf?`, `ScopeRelated.bindAll`, `OriginRelated.code` and their companions), and
`Related.eq_of_within` — related values are the same if the objects in them are.
-/

namespace DualForm

variable {F F' : Func → Func → Prop} {D D' : Dual → Dual → Prop}

/-! ## Given objects -/

/-- The functions and duals given before, and the routines host functions run. -/
structure Ground where
  funcs : Func → Prop
  duals : Dual → Prop
  routines : String → Prop

mutual

/-- The functions in the value are among `funcs`, the duals among `duals`, and it holds no factory. -/
def Value.Within (funcs : Func → Prop) (duals : Dual → Prop) : Value → Prop
  | .func f => funcs f
  | .dual d => duals d
  | .factory _ => False
  | .list items => Value.AllWithin funcs duals items
  | .record _ _ fields => Value.FieldsWithin funcs duals fields
  | .null | .bool _ | .int _ | .float _ | .str _ => True

/-- The same for each value of a list. -/
def Value.AllWithin (funcs : Func → Prop) (duals : Dual → Prop) : List Value → Prop
  | [] => True
  | v :: vs => Value.Within funcs duals v ∧ Value.AllWithin funcs duals vs

/-- The same for each field. -/
def Value.FieldsWithin (funcs : Func → Prop) (duals : Dual → Prop) : List (String × Value) → Prop
  | [] => True
  | (_, v) :: fields => Value.Within funcs duals v ∧ Value.FieldsWithin funcs duals fields

end

variable (G : Ground)

/-- The value holds given objects only. -/
def Value.Given (v : Value) : Prop := Value.Within G.funcs G.duals v

/-- The getter runs given functions only, and returns given values. -/
def Getter.Given : Getter → Prop
  | .property f | .computed f => G.funcs f
  | .fixed v => Value.Given G v
  | .field | .evaluator _ => True

/-- The method runs given functions only. -/
def Invoker.Given : Invoker → Prop
  | .function f | .method f => G.funcs f
  | _ => True

/-- The node holds given values only, and reads and calls nothing but given functions. -/
def Tree.GivenNode : Expr → Prop
  | .literal v _ => Value.Given G v
  | .staticMember m | .member _ m => m.getter.Given G
  | .staticCall m _ | .call _ m _ => m.invoker.Given G
  | .binary _ _ _ via | .unary _ _ via _ => ∀ m ∈ via, m.invoker.Given G
  | _ => True

/-- Every node holds given values only. -/
def Tree.Given (t : Expr) : Prop := t.Everywhere (Tree.GivenNode G)

variable {G}

/-! ## Related values -/

mutual

/-- The same value, up to the functions and duals in it. -/
inductive Related (F : Func → Func → Prop) (D : Dual → Dual → Prop) : Value → Value → Prop
  | scalar {v : Value} : v.isScalar = true → Related F D v v
  | list {vs ws : List Value} : RelatedAll F D vs ws → Related F D (.list vs) (.list ws)
  | record (id : Nat) (declaring : DeclaringType) {fs gs : List (String × Value)} :
      RelatedFields F D fs gs → Related F D (.record id declaring fs) (.record id declaring gs)
  | func {f g : Func} : F f g → Related F D (.func f) (.func g)
  | dual {d e : Dual} : D d e → Related F D (.dual d) (.dual e)

/-- The same values one by one. -/
inductive RelatedAll (F : Func → Func → Prop) (D : Dual → Dual → Prop) : List Value → List Value → Prop
  | nil : RelatedAll F D [] []
  | cons {v w : Value} {vs ws : List Value} : Related F D v w → RelatedAll F D vs ws →
      RelatedAll F D (v :: vs) (w :: ws)

/-- The same fields one by one. -/
inductive RelatedFields (F : Func → Func → Prop) (D : Dual → Dual → Prop) :
    List (String × Value) → List (String × Value) → Prop
  | nil : RelatedFields F D [] []
  | cons (name : String) {v w : Value} {fs gs : List (String × Value)} : Related F D v w →
      RelatedFields F D fs gs → RelatedFields F D ((name, v) :: fs) ((name, w) :: gs)

end

/-- One of the two runs. -/
inductive Side where
  | left
  | right

/-- What stands on this side of a pair. -/
def Side.of {α : Type} (a : Side) (x y : α) : α :=
  match a with
  | .left => x
  | .right => y

variable {a b : Side}

mutual

/-- Values are related by the pairs that relate what is in them, seen from any two sides. -/
theorem Related.seen (hF : ∀ f g, F f g → F' (a.of f g) (b.of f g))
    (hD : ∀ d e, D d e → D' (a.of d e) (b.of d e)) :
    ∀ {v w : Value}, Related F D v w → Related F' D' (a.of v w) (b.of v w)
  | _, _, .scalar hv => by cases a <;> cases b <;> exact .scalar hv
  | _, _, .list hvs => by
      have h := hvs.seen hF hD
      cases a <;> cases b <;> exact .list h
  | _, _, .record id declaring hfs => by
      have h := hfs.seen hF hD
      cases a <;> cases b <;> exact .record id declaring h
  | _, _, .func hf => by
      have h := hF _ _ hf
      cases a <;> cases b <;> exact .func h
  | _, _, .dual hd => by
      have h := hD _ _ hd
      cases a <;> cases b <;> exact .dual h

theorem RelatedAll.seen (hF : ∀ f g, F f g → F' (a.of f g) (b.of f g))
    (hD : ∀ d e, D d e → D' (a.of d e) (b.of d e)) :
    ∀ {vs ws : List Value}, RelatedAll F D vs ws → RelatedAll F' D' (a.of vs ws) (b.of vs ws)
  | _, _, .nil => by cases a <;> cases b <;> exact .nil
  | _, _, .cons hv hvs => by
      have h := hv.seen hF hD
      have hs := hvs.seen hF hD
      cases a <;> cases b <;> exact .cons h hs

theorem RelatedFields.seen (hF : ∀ f g, F f g → F' (a.of f g) (b.of f g))
    (hD : ∀ d e, D d e → D' (a.of d e) (b.of d e)) :
    ∀ {fs gs : List (String × Value)}, RelatedFields F D fs gs →
      RelatedFields F' D' (a.of fs gs) (b.of fs gs)
  | _, _, .nil => by cases a <;> cases b <;> exact .nil
  | _, _, .cons name hv hfs => by
      have h := hv.seen hF hD
      have hs := hfs.seen hF hD
      cases a <;> cases b <;> exact .cons name h hs

end

theorem Related.mono (hF : ∀ f g, F f g → F' f g) (hD : ∀ d e, D d e → D' d e) {v w : Value}
    (h : Related F D v w) : Related F' D' v w := by
  have h : Related F' D' (Side.left.of v w) (Side.right.of v w) := h.seen hF hD
  exact h

theorem RelatedAll.mono (hF : ∀ f g, F f g → F' f g) (hD : ∀ d e, D d e → D' d e)
    {vs ws : List Value} (h : RelatedAll F D vs ws) : RelatedAll F' D' vs ws := by
  have h : RelatedAll F' D' (Side.left.of vs ws) (Side.right.of vs ws) := h.seen hF hD
  exact h

section Within

variable {p : Func → Prop} {q : Dual → Prop}

mutual

theorem Value.Within.related (hF : ∀ f, p f → F f f) (hD : ∀ d, q d → D d d) :
    ∀ {v : Value}, Value.Within p q v → Related F D v v
  | .null, _ | .bool _, _ | .int _, _ | .float _, _ | .str _, _ => .scalar rfl
  | .list _, h => .list (Value.AllWithin.related hF hD h)
  | .record id declaring _, h => .record id declaring (Value.FieldsWithin.related hF hD h)
  | .func _, h => .func (hF _ h)
  | .dual _, h => .dual (hD _ h)
  | .factory _, h => h.elim

theorem Value.AllWithin.related (hF : ∀ f, p f → F f f) (hD : ∀ d, q d → D d d) :
    ∀ {vs : List Value}, Value.AllWithin p q vs → RelatedAll F D vs vs
  | [], _ => .nil
  | _ :: _, h => .cons (Value.Within.related hF hD h.1) (Value.AllWithin.related hF hD h.2)

theorem Value.FieldsWithin.related (hF : ∀ f, p f → F f f) (hD : ∀ d, q d → D d d) :
    ∀ {fs : List (String × Value)}, Value.FieldsWithin p q fs → RelatedFields F D fs fs
  | [], _ => .nil
  | (name, _) :: _, h =>
      .cons name (Value.Within.related hF hD h.1) (Value.FieldsWithin.related hF hD h.2)

end

mutual

/-- Related values are the same if the objects in them are. -/
theorem Related.eq_of_within (hF : ∀ f g, p f → F f g → f = g) (hD : ∀ d e, q d → D d e → d = e) :
    ∀ {v w : Value}, Related F D v w → Value.Within p q v → v = w
  | _, _, .scalar _, _ => rfl
  | _, _, .list hvs, h => by rw [hvs.eq_of_within hF hD h]
  | _, _, .record _ _ hfs, h => by rw [hfs.eq_of_within hF hD h]
  | _, _, .func hf, h => by rw [hF _ _ h hf]
  | _, _, .dual hd, h => by rw [hD _ _ h hd]

theorem RelatedAll.eq_of_within (hF : ∀ f g, p f → F f g → f = g) (hD : ∀ d e, q d → D d e → d = e) :
    ∀ {vs ws : List Value}, RelatedAll F D vs ws → Value.AllWithin p q vs → vs = ws
  | _, _, .nil, _ => rfl
  | _, _, .cons hv hvs, h => by rw [hv.eq_of_within hF hD h.1, hvs.eq_of_within hF hD h.2]

theorem RelatedFields.eq_of_within (hF : ∀ f g, p f → F f g → f = g) (hD : ∀ d e, q d → D d e → d = e) :
    ∀ {fs gs : List (String × Value)}, RelatedFields F D fs gs → Value.FieldsWithin p q fs → fs = gs
  | _, _, .nil, _ => rfl
  | _, _, .cons _ hv hfs, h => by rw [hv.eq_of_within hF hD h.1, hfs.eq_of_within hF hD h.2]

end

end Within

theorem RelatedAll.length : ∀ {vs ws : List Value}, RelatedAll F D vs ws → vs.length = ws.length
  | _, _, .nil => rfl
  | _, _, .cons _ hvs => congrArg Nat.succ hvs.length

theorem RelatedAll.single {vs ws : List Value} (h : RelatedAll F D vs ws) (hcount : vs.length = 1) :
    ∃ v w, vs = [v] ∧ ws = [w] ∧ Related F D v w := by
  cases h with
  | nil => cases hcount
  | cons hv hvs =>
      cases hvs with
      | nil => exact ⟨_, _, rfl, rfl, hv⟩
      | cons => cases hcount

theorem RelatedAll.pair {vs ws : List Value} (h : RelatedAll F D vs ws) (hcount : vs.length = 2) :
    ∃ v v' w w', vs = [v, v'] ∧ ws = [w, w'] ∧ Related F D v w ∧ Related F D v' w' := by
  cases h with
  | nil => cases hcount
  | cons hv hvs =>
      obtain ⟨v', w', rfl, rfl, hv'⟩ := hvs.single (Nat.succ.inj hcount)
      exact ⟨_, _, _, _, rfl, rfl, hv, hv'⟩

theorem RelatedAll.getD (v : Value) (hv : v.isScalar = true) : ∀ {vs ws : List Value} (i : Nat),
    RelatedAll F D vs ws → Related F D (vs.getD i v) (ws.getD i v)
  | _, _, _, .nil => .scalar hv
  | _, _, 0, .cons hw _ => hw
  | _, _, i + 1, .cons _ hvs => hvs.getD v hv i

theorem RelatedFields.fieldOf? (name : String) : ∀ {fs gs : List (String × Value)},
    RelatedFields F D fs gs → (Datum.fieldOf? fs name = none ∧ Datum.fieldOf? gs name = none) ∨
      ∃ v w, Datum.fieldOf? fs name = some v ∧ Datum.fieldOf? gs name = some w ∧ Related F D v w
  | _, _, .nil => .inl ⟨rfl, rfl⟩
  | _, _, .cons key hv hfs => by
      unfold Datum.fieldOf?
      rw [List.find?_cons, List.find?_cons]
      by_cases hkey : key = name
      · simp only [hkey, decide_true]
        exact .inr ⟨_, _, rfl, rfl, hv⟩
      · simp only [hkey, decide_false]
        exact hfs.fieldOf? name

/-- Scopes with related values for the same parameters. -/
def ScopeRelated (F : Func → Func → Prop) (D : Dual → Dual → Prop) (σ ρ : Scope) : Prop :=
  List.Forall₂ (fun x y => x.1 = y.1 ∧ Related F D x.2 y.2) σ ρ

theorem ScopeRelated.lookup? {σ ρ : Scope} (h : ScopeRelated F D σ ρ) (p : Param) :
    (σ.lookup? p = none ∧ ρ.lookup? p = none) ∨
      ∃ v w, σ.lookup? p = some v ∧ ρ.lookup? p = some w ∧ Related F D v w := by
  unfold Scope.lookup?
  induction h with
  | nil => exact .inl ⟨rfl, rfl⟩
  | @cons x y σ ρ hxy _ ih =>
      rw [List.find?_cons, List.find?_cons, ← hxy.1]
      by_cases hp : x.1 = p
      · simp only [hp, decide_true]
        exact .inr ⟨_, _, rfl, rfl, hxy.2⟩
      · simp only [hp, decide_false]
        exact ih

theorem RelatedAll.zip : ∀ {vs ws : List Value} (ps : List Param), RelatedAll F D vs ws →
    ScopeRelated F D (ps.zip vs) (ps.zip ws)
  | _, _, [], _ => by rw [List.zip_nil_left, List.zip_nil_left]; exact .nil
  | _, _, _ :: _, .nil => .nil
  | _, _, _ :: ps, .cons hv hvs => .cons ⟨rfl, hv⟩ (hvs.zip ps)

theorem ScopeRelated.bindAll {σ ρ : Scope} (h : ScopeRelated F D σ ρ) {vs ws : List Value}
    (hvs : RelatedAll F D vs ws) (ps : List Param) :
    ScopeRelated F D (σ.bindAll ps vs) (ρ.bindAll ps ws) :=
  List.rel_append (List.rel_reverse (hvs.zip ps)) h

/-! ## Functions and duals that stand for each other -/

/-- Code that does the same. -/
inductive CodeRelated (G : Ground) (F : Func → Func → Prop) (D : Dual → Dual → Prop) : Code → Code → Prop
  | closure {l : Lam} {σ ρ : Scope} : l.body.Given G → ScopeRelated F D σ ρ →
      CodeRelated G F D (.closure l σ) (.closure l ρ)
  | host {name : String} {vs ws : List Value} : G.routines name → RelatedAll F D vs ws →
      CodeRelated G F D (.host name vs) (.host name ws)
  | chain {f g f' g' : Func} : F f f' → F g g' → CodeRelated G F D (.chain f g) (.chain f' g')
  | conjunction {f g f' g' : Func} : F f f' → F g g' →
      CodeRelated G F D (.conjunction f g) (.conjunction f' g')
  | disjunction {f g f' g' : Func} : F f f' → F g g' →
      CodeRelated G F D (.disjunction f g) (.disjunction f' g')
  | negation {f f' : Func} : F f f' → CodeRelated G F D (.negation f) (.negation f')

/-- Functions that stand for each other, with the same tree. -/
structure CompiledRelated (G : Ground) (F : Func → Func → Prop) (c c' : Compiled) : Prop where
  func : F c.func c'.func
  tree : ∃ l, c.expression = some l ∧ c'.expression = some l ∧ l.body.Given G

/-- Duals made in the same way. -/
inductive OriginRelated (G : Ground) (F : Func → Func → Prop) (D : Dual → Dual → Prop) :
    Origin → Origin → Prop
  | lambda {l : Lam} : l.body.Given G → OriginRelated G F D (.lambda l) (.lambda l)
  | compiled {c c' : Compiled} : CompiledRelated G F c c' →
      OriginRelated G F D (.compiled c) (.compiled c')
  | composed {d e d' e' : Dual} : D d d' → D e e' → OriginRelated G F D (.composed d e) (.composed d' e')
  | precomposed {d d' : Dual} {c c' : Compiled} : D d d' → CompiledRelated G F c c' →
      OriginRelated G F D (.precomposed d c) (.precomposed d' c')
  | postcomposed {d d' : Dual} {c c' : Compiled} : D d d' → CompiledRelated G F c c' →
      OriginRelated G F D (.postcomposed d c) (.postcomposed d' c')
  | conjunction {d e d' e' : Dual} : D d d' → D e e' →
      OriginRelated G F D (.conjunction d e) (.conjunction d' e')
  | disjunction {d e d' e' : Dual} : D d d' → D e e' →
      OriginRelated G F D (.disjunction d e) (.disjunction d' e')
  | negation {d d' : Dual} : D d d' → OriginRelated G F D (.negation d) (.negation d')

theorem ScopeRelated.seen (hF : ∀ f g, F f g → F' (a.of f g) (b.of f g))
    (hD : ∀ d e, D d e → D' (a.of d e) (b.of d e)) {σ ρ : Scope} (h : ScopeRelated F D σ ρ) :
    ScopeRelated F' D' (a.of σ ρ) (b.of σ ρ) := by
  induction h with
  | nil => cases a <;> cases b <;> exact .nil
  | cons hxy _ ih =>
      have h := hxy.2.seen hF hD
      cases a <;> cases b
      · exact .cons ⟨rfl, h⟩ ih
      · exact .cons ⟨hxy.1, h⟩ ih
      · exact .cons ⟨hxy.1.symm, h⟩ ih
      · exact .cons ⟨rfl, h⟩ ih

theorem ScopeRelated.mono (hF : ∀ f g, F f g → F' f g) (hD : ∀ d e, D d e → D' d e) {σ ρ : Scope}
    (h : ScopeRelated F D σ ρ) : ScopeRelated F' D' σ ρ := by
  have h : ScopeRelated F' D' (Side.left.of σ ρ) (Side.right.of σ ρ) := h.seen hF hD
  exact h

theorem CodeRelated.seen (hF : ∀ f g, F f g → F' (a.of f g) (b.of f g))
    (hD : ∀ d e, D d e → D' (a.of d e) (b.of d e)) {c c' : Code} (h : CodeRelated G F D c c') :
    CodeRelated G F' D' (a.of c c') (b.of c c') := by
  cases h with
  | closure hl hσ =>
      have h := hσ.seen hF hD
      cases a <;> cases b <;> exact .closure hl h
  | host hname hvs =>
      have h := hvs.seen hF hD
      cases a <;> cases b <;> exact .host hname h
  | chain hf hg =>
      have h := hF _ _ hf
      have h' := hF _ _ hg
      cases a <;> cases b <;> exact .chain h h'
  | conjunction hf hg =>
      have h := hF _ _ hf
      have h' := hF _ _ hg
      cases a <;> cases b <;> exact .conjunction h h'
  | disjunction hf hg =>
      have h := hF _ _ hf
      have h' := hF _ _ hg
      cases a <;> cases b <;> exact .disjunction h h'
  | negation hf =>
      have h := hF _ _ hf
      cases a <;> cases b <;> exact .negation h

theorem CodeRelated.mono (hF : ∀ f g, F f g → F' f g) (hD : ∀ d e, D d e → D' d e) {c c' : Code}
    (h : CodeRelated G F D c c') : CodeRelated G F' D' c c' := by
  have h : CodeRelated G F' D' (Side.left.of c c') (Side.right.of c c') := h.seen hF hD
  exact h

theorem CompiledRelated.seen (hF : ∀ f g, F f g → F' (a.of f g) (b.of f g)) {c c' : Compiled}
    (h : CompiledRelated G F c c') : CompiledRelated G F' (a.of c c') (b.of c c') := by
  obtain ⟨l, hl, hl', hgiven⟩ := h.tree
  have hf := hF _ _ h.func
  cases a <;> cases b
  · exact ⟨hf, l, hl, hl, hgiven⟩
  · exact ⟨hf, l, hl, hl', hgiven⟩
  · exact ⟨hf, l, hl', hl, hgiven⟩
  · exact ⟨hf, l, hl', hl', hgiven⟩

theorem CompiledRelated.mono (hF : ∀ f g, F f g → F' f g) {c c' : Compiled}
    (h : CompiledRelated G F c c') : CompiledRelated G F' c c' := ⟨hF _ _ h.func, h.tree⟩

theorem OriginRelated.seen (hF : ∀ f g, F f g → F' (a.of f g) (b.of f g))
    (hD : ∀ d e, D d e → D' (a.of d e) (b.of d e)) {o o' : Origin} (h : OriginRelated G F D o o') :
    OriginRelated G F' D' (a.of o o') (b.of o o') := by
  cases h with
  | lambda hl => cases a <;> cases b <;> exact .lambda hl
  | compiled hc =>
      have h := hc.seen hF
      cases a <;> cases b <;> exact .compiled h
  | composed hd he =>
      have h := hD _ _ hd
      have h' := hD _ _ he
      cases a <;> cases b <;> exact .composed h h'
  | precomposed hd hc =>
      have h := hD _ _ hd
      have h' := hc.seen hF
      cases a <;> cases b <;> exact .precomposed h h'
  | postcomposed hd hc =>
      have h := hD _ _ hd
      have h' := hc.seen hF
      cases a <;> cases b <;> exact .postcomposed h h'
  | conjunction hd he =>
      have h := hD _ _ hd
      have h' := hD _ _ he
      cases a <;> cases b <;> exact .conjunction h h'
  | disjunction hd he =>
      have h := hD _ _ hd
      have h' := hD _ _ he
      cases a <;> cases b <;> exact .disjunction h h'
  | negation hd =>
      have h := hD _ _ hd
      cases a <;> cases b <;> exact .negation h

theorem OriginRelated.mono (hF : ∀ f g, F f g → F' f g) (hD : ∀ d e, D d e → D' d e) {o o' : Origin}
    (h : OriginRelated G F D o o') : OriginRelated G F' D' o o' := by
  have h : OriginRelated G F' D' (Side.left.of o o') (Side.right.of o o') := h.seen hF hD
  exact h

namespace OriginRelated

variable {o o' : Origin}

/-- Both are made of functions of others, or neither. -/
theorem made (h : OriginRelated G F D o o') : o.Made ↔ o'.Made := by cases h <;> rfl

theorem kind (h : OriginRelated G F D o o') (a : Side) :
    (a.of o o').Made ∨ ∃ c, a.of o o' = .compiled c := by
  cases h with
  | compiled => cases a <;> exact .inr ⟨_, rfl⟩
  | _ => cases a <;> exact .inl trivial

theorem arity (h : OriginRelated G F D o o') : o.arity = o'.arity := by cases h <;> rfl

theorem parts (h : OriginRelated G F D o o') : List.Forall₂ D o.parts o'.parts := by
  cases h with
  | lambda | compiled => exact .nil
  | composed hd he => exact .cons he (.cons hd .nil)
  | precomposed hd | postcomposed hd | negation hd => exact .cons hd .nil
  | conjunction hd he | disjunction hd he => exact .cons hd (.cons he .nil)

/-- Each part of one is paired with a part of the other. -/
theorem part (h : OriginRelated G F D o o') (a : Side) {p : Dual} (hp : p ∈ (a.of o o').parts) :
    ∃ d e, D d e ∧ a.of d e = p := by
  have hpaired : ∀ {ds es : List Dual}, List.Forall₂ D ds es → p ∈ a.of ds es →
      ∃ d e, D d e ∧ a.of d e = p := by
    intro ds es hde hp
    induction hde with
    | nil => cases a <;> cases hp
    | @cons d e ds es hde _ ih =>
        cases a with
        | left =>
            rcases List.mem_cons.1 hp with rfl | hp
            · exact ⟨p, e, hde, rfl⟩
            · exact ih hp
        | right =>
            rcases List.mem_cons.1 hp with rfl | hp
            · exact ⟨d, p, hde, rfl⟩
            · exact ih hp
  refine hpaired h.parts ?_
  cases a <;> exact hp

/-- Made of functions that stand for each other, they are functions that do the same. -/
theorem code (h : OriginRelated G F D o o') (hF : ∀ f g, F f g → F' f g) (hmade : o.Made)
    {fs gs : List Func} (hlength : fs.length = o.parts.length) (hfs : List.Forall₂ F' fs gs) :
    CodeRelated G F' D' (o.code fs) (o'.code gs) := by
  have hone : fs.length = 1 → ∃ f f', fs = [f] ∧ gs = [f'] ∧ F' f f' := by
    intro hlen
    obtain ⟨f, rfl⟩ := List.length_eq_one_iff.1 hlen
    obtain ⟨f', _, hf, hnil, rfl⟩ := List.forall₂_cons_left_iff.1 hfs
    rw [List.forall₂_nil_left_iff.1 hnil]
    exact ⟨f, f', rfl, rfl, hf⟩
  have htwo : fs.length = 2 → ∃ f g f' g', fs = [f, g] ∧ gs = [f', g'] ∧ F' f f' ∧ F' g g' := by
    intro hlen
    obtain ⟨f, g, rfl⟩ := List.length_eq_two.1 hlen
    obtain ⟨f', _, hf, hrest, rfl⟩ := List.forall₂_cons_left_iff.1 hfs
    obtain ⟨g', _, hg, hnil, rfl⟩ := List.forall₂_cons_left_iff.1 hrest
    rw [List.forall₂_nil_left_iff.1 hnil]
    exact ⟨f, g, f', g', rfl, rfl, hf, hg⟩
  cases h with
  | lambda hl => exact .closure hl .nil
  | compiled => exact hmade.elim
  | composed =>
      obtain ⟨f, g, f', g', rfl, rfl, hf, hg⟩ := htwo hlength
      exact .chain hf hg
  | conjunction =>
      obtain ⟨f, g, f', g', rfl, rfl, hf, hg⟩ := htwo hlength
      exact .conjunction hf hg
  | disjunction =>
      obtain ⟨f, g, f', g', rfl, rfl, hf, hg⟩ := htwo hlength
      exact .disjunction hf hg
  | precomposed _ hc =>
      obtain ⟨f, f', rfl, rfl, hf⟩ := hone hlength
      exact .chain (hF _ _ hc.func) hf
  | postcomposed _ hc =>
      obtain ⟨f, f', rfl, rfl, hf⟩ := hone hlength
      exact .chain hf (hF _ _ hc.func)
  | negation =>
      obtain ⟨f, f', rfl, rfl, hf⟩ := hone hlength
      exact .negation hf

end OriginRelated

end DualForm
