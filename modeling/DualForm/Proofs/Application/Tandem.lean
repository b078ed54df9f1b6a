import DualForm.Proofs.Application.Programs
import DualForm.Proofs.Dual.History

/-!
# The stores of two runs

* `Store.Extends s t` — `t` has given out the identities of `s` and published its function forms;
  `Store.Unspent s` — nothing is published under an identity that has not been given out.
* `Tandem` — two stores, and the objects of one run that stand for objects of the other.
* `Tandem.Sound C U W` — paired objects are coupled, they are paired one to one, and a function form published
  on the left is published on the right. `Tandem.InStep W` — and the other way round.
* `V.Later W` — `W` is a later tandem; `Quiet V W` — nothing has been published since, and what has been
  paired since is new on both sides.
* `Resides C K s` — the objects with `K` make sense in the store `s`: it is sound beside itself.

Principal results: `Sound.add`, `Sound.publish`, `Sound.moveLeft` — a tandem stays sound when both runs make
an object, when both publish a form, and when one of them goes on alone; `Sound.seen` — and when it is looked at
from other sides.
-/

namespace DualForm

variable {C : Contract} {U U' : View → Prop} {a b : Side}

/-! ## One store -/

/-- A store that has at least the identities and the function forms of another one. -/
structure Store.Extends (s t : Store) : Prop where
  nextId : s.nextId ≤ t.nextId
  functions : ∀ {i : Nat} {f : Func}, s.functions[i]? = some f → t.functions[i]? = some f

/-- Nothing is published under an identity that has not been given out. -/
def Store.Unspent (s : Store) : Prop := ∀ i, s.nextId ≤ i → s.functions[i]? = none

namespace Store

variable {s t u : Store}

theorem Extends.refl (s : Store) : s.Extends s := ⟨Nat.le_refl _, id⟩

theorem Extends.trans (h : s.Extends t) (k : t.Extends u) : s.Extends u :=
  ⟨Nat.le_trans h.nextId k.nextId, fun hf => k.functions (h.functions hf)⟩

theorem Extends.of_functions (hid : s.nextId ≤ t.nextId) (h : t.functions = s.functions) : s.Extends t :=
  ⟨hid, fun hf => by rw [h]; exact hf⟩

theorem Unspent.of_functions (hs : s.Unspent) (hid : s.nextId ≤ t.nextId) (h : t.functions = s.functions) :
    t.Unspent := fun i hi => by rw [h]; exact hs i (Nat.le_trans hid hi)

theorem Extends.write {d : Dual} (f : Func) (h : s.functions[d.id]? = none) :
    s.Extends ((Slot.function d).write f s) := by
  refine ⟨Nat.le_refl _, fun {i k} hk => ?_⟩
  rw [functions_write]
  split
  · rename_i hid
    rw [hid] at h
    rw [h] at hk
    cases hk
  · exact hk

theorem Unspent.write (hs : s.Unspent) {d : Dual} (f : Func) (hd : d.id < s.nextId) :
    ((Slot.function d).write f s).Unspent := by
  intro i hi
  rw [functions_write, if_neg (Nat.ne_of_lt (Nat.lt_of_lt_of_le hd hi))]
  exact hs i hi

end Store

/-! ## Two stores -/

/-- The stores of two runs, and the objects that stand for each other. -/
structure Tandem where
  left : Store
  right : Store
  pairs : Pairing

namespace Tandem

/-- The store of a run. -/
def store (W : Tandem) (a : Side) : Store := a.of W.left W.right

/-- The pairs are what they should be. -/
structure Sound (C : Contract) (U : View → Prop) (W : Tandem) : Prop where
  content : ∀ {x y}, W.pairs x y → Object.Coupled C U W.pairs x y
  apart : ∀ {x y x' y'}, W.pairs x y → W.pairs x' y' →
    x.identity = x'.identity ∨ y.identity = y'.identity → x = x' ∧ y = y'
  older : ∀ {x y}, W.pairs x y → x.id < W.left.nextId ∧ y.id < W.right.nextId
  forms : ∀ {d e f}, W.pairs (.dual d) (.dual e) → W.left.functions[d.id]? = some f →
    ∃ g, W.right.functions[e.id]? = some g ∧ W.pairs (.func f) (.func g)
  unspent : W.left.Unspent ∧ W.right.Unspent

/-- A function form published on the right is published on the left. -/
def InStep (W : Tandem) : Prop := ∀ {d e g}, W.pairs (.dual d) (.dual e) →
  W.right.functions[e.id]? = some g → ∃ f, W.left.functions[d.id]? = some f

/-- The second tandem is a later one: what stood for each other still does, and on the left nothing has been
published for objects without a counterpart. -/
structure Later (V W : Tandem) : Prop where
  pairs : ∀ x y, V.pairs x y → W.pairs x y
  new : ∀ {x y}, W.pairs x y → V.pairs x y ∨ V.left.nextId ≤ x.id
  left : V.left.Extends W.left
  right : V.right.Extends W.right
  frame : ∀ {i}, i < V.left.nextId → (∀ d e, V.pairs (.dual d) (.dual e) → d.id ≠ i) →
    W.left.functions[i]? = V.left.functions[i]?

/-- Nothing has been published since, and what has been paired is new on both sides. -/
structure Quiet (V W : Tandem) : Prop where
  left : W.left.functions = V.left.functions
  right : W.right.functions = V.right.functions
  new : ∀ {x y}, W.pairs x y → V.pairs x y ∨ (V.left.nextId ≤ x.id ∧ V.right.nextId ≤ y.id)

variable {V W : Tandem} {X : Tandem}

theorem Later.refl (W : Tandem) : W.Later W :=
  ⟨fun _ _ => id, .inl, .refl _, .refl _, fun _ _ => rfl⟩

theorem Later.trans (h : V.Later W) (k : W.Later X) : V.Later X where
  pairs x y hxy := k.pairs x y (h.pairs x y hxy)
  new hxy := by
    rcases k.new hxy with hxy | hnew
    · exact h.new hxy
    · exact .inr (Nat.le_trans h.left.nextId hnew)
  left := h.left.trans k.left
  right := h.right.trans k.right
  frame {i} hi hknown := by
    rw [k.frame (Nat.lt_of_lt_of_le hi h.left.nextId) ?_, h.frame hi hknown]
    intro d e hde
    rcases h.new hde with hde | hnew
    · exact hknown d e hde
    · exact Nat.ne_of_gt (Nat.lt_of_lt_of_le hi hnew)

theorem Later.value (h : V.Later W) {v w : Value} (hv : Value.Coupled V.pairs v w) :
    Value.Coupled W.pairs v w := hv.mono h.pairs

theorem Later.values (h : V.Later W) {vs ws : List Value} (hvs : Value.AllCoupled V.pairs vs ws) :
    Value.AllCoupled W.pairs vs ws := hvs.mono h.pairs

theorem Later.scope (h : V.Later W) {Γ : Correspondence} {σ ρ : Scope} (hσ : Scope.Coupled V.pairs Γ σ ρ) :
    Scope.Coupled W.pairs Γ σ ρ := hσ.mono h.pairs

namespace Sound

/-- Objects of a sound tandem show the same. -/
theorem faithful (h : W.Sound C U) : W.pairs.Faithful where
  same hxy hxy' := by
    constructor
    · intro hid
      obtain ⟨-, rfl⟩ := h.apart hxy hxy' (.inl hid)
      rfl
    · intro hid
      obtain ⟨rfl, -⟩ := h.apart hxy hxy' (.inr hid)
      rfl
  arity hf := by
    cases h.content hf with
    | func hf => exact hf.arity
  kind hd := by
    cases h.content hd with
    | dual hd => exact hd.kind
  dual hd := by
    cases h.content hd with
    | dual hd =>
        unfold Dual.signature
        rw [hd.kind, hd.source, hd.result]
  factory hk := by
    cases h.content hk with
    | factory hk =>
        unfold Factory.signature Factory.openParams
        rw [hk.kind, hk.source, hk.result, hk.next, hk.second]

theorem func (h : W.Sound C U) {f g : Func} (hf : W.pairs (.func f) (.func g)) :
    Func.Coupled C U W.pairs f g := by
  cases h.content hf with
  | func hf => exact hf

theorem dual (h : W.Sound C U) {d e : Dual} (hd : W.pairs (.dual d) (.dual e)) :
    Dual.Coupled C U W.pairs d e := by
  cases h.content hd with
  | dual hd => exact hd

theorem factory (h : W.Sound C U) {k l : Factory} (hk : W.pairs (.factory k) (.factory l)) :
    Factory.Coupled C W.pairs k l := by
  cases h.content hk with
  | factory hk => exact hk

/-- An object paired with itself is paired with nothing else. -/
theorem alone (h : W.Sound C U) {x y : Object} (hxx : W.pairs x x) (hxy : W.pairs x y) : y = x :=
  (h.apart hxy hxx (.inl rfl)).2

/-- The pairs stay sound in later stores that keep the forms of what is paired. -/
theorem withStores (h : W.Sound C U) {s t : Store} (hs : W.left.Extends s) (ht : W.right.Extends t)
    (hus : s.Unspent) (hut : t.Unspent)
    (hforms : ∀ d e, W.pairs (.dual d) (.dual e) → s.functions[d.id]? = W.left.functions[d.id]?) :
    (Tandem.mk s t W.pairs).Sound C U where
  content := h.content
  apart := h.apart
  older hxy := ⟨Nat.lt_of_lt_of_le (h.older hxy).1 hs.nextId, Nat.lt_of_lt_of_le (h.older hxy).2 ht.nextId⟩
  forms {d e f} hde hf := by
    rw [hforms d e hde] at hf
    obtain ⟨g, hg, hfg⟩ := h.forms hde hf
    exact ⟨g, ht.functions hg, hfg⟩
  unspent := ⟨hus, hut⟩

/-- **The run on the left goes on alone,** and leaves the forms of old duals alone. -/
theorem moveLeft (h : W.Sound C U) {s : Store} (hs : W.left.Extends s) (hus : s.Unspent)
    (hforms : ∀ i < W.left.nextId, s.functions[i]? = W.left.functions[i]?) :
    (Tandem.mk s W.right W.pairs).Sound C U ∧ W.Later (Tandem.mk s W.right W.pairs) :=
  ⟨h.withStores hs (.refl _) hus h.unspent.2 fun _ _ hde => hforms _ (h.older hde).1,
    ⟨fun _ _ => id, .inl, hs, .refl _, fun hi _ => hforms _ hi⟩⟩

/-- **The run on the right goes on alone.** -/
theorem moveRight (h : W.Sound C U) {t : Store} (ht : W.right.Extends t) (hut : t.Unspent) :
    (Tandem.mk W.left t W.pairs).Sound C U ∧ W.Later (Tandem.mk W.left t W.pairs) :=
  ⟨h.withStores (.refl _) ht h.unspent.1 hut fun _ _ _ => rfl,
    ⟨fun _ _ => id, .inl, .refl _, ht, fun _ _ => rfl⟩⟩

/-- Both runs go on, and publish nothing. -/
theorem idle (h : W.Sound C U) {s t : Store} (hs : s.functions = W.left.functions)
    (ht : t.functions = W.right.functions) (hsid : W.left.nextId ≤ s.nextId)
    (htid : W.right.nextId ≤ t.nextId) :
    let V := Tandem.mk s t W.pairs
    V.Sound C U ∧ W.Later V ∧ Quiet W V :=
  ⟨h.withStores (.of_functions hsid hs) (.of_functions htid ht) (h.unspent.1.of_functions hsid hs)
      (h.unspent.2.of_functions htid ht) fun _ _ _ => by rw [hs],
    ⟨fun _ _ => id, .inl, .of_functions hsid hs, .of_functions htid ht, fun _ _ => by rw [hs]⟩,
    ⟨hs, ht, .inl⟩⟩

/-- **Both runs make an object.** -/
theorem add (h : W.Sound C U) {s t : Store} {x y : Object} (hs : s.functions = W.left.functions)
    (ht : t.functions = W.right.functions) (hx : W.left.nextId ≤ x.id ∧ x.id < s.nextId)
    (hy : W.right.nextId ≤ y.id ∧ y.id < t.nextId) (hxy : Object.Coupled C U W.pairs x y) :
    let V := Tandem.mk s t fun z w => W.pairs z w ∨ (z = x ∧ w = y)
    V.Sound C U ∧ W.Later V ∧ Quiet W V := by
  have hsid : W.left.nextId ≤ s.nextId := by omega
  have htid : W.right.nextId ≤ t.nextId := by omega
  -- Objects made now have identities that have not been given out before.
  have hnew : ∀ {z w}, W.pairs z w → x.identity ≠ z.identity ∧ y.identity ≠ w.identity := by
    intro z w hzw
    obtain ⟨hz, hw⟩ := h.older hzw
    constructor
    · intro hid
      have := Object.id_eq hid
      omega
    · intro hid
      have := Object.id_eq hid
      omega
  refine ⟨⟨?_, ?_, ?_, ?_, ?_⟩, ⟨?_, ?_, .of_functions hsid hs, .of_functions htid ht, fun _ _ => by rw [hs]⟩,
    ⟨hs, ht, ?_⟩⟩
  · rintro z w (hzw | ⟨rfl, rfl⟩)
    · exact (h.content hzw).mono (fun _ _ => .inl) fun _ => id
    · exact hxy.mono (fun _ _ => .inl) fun _ => id
  · rintro z w z' w' (hzw | ⟨rfl, rfl⟩) (hzw' | ⟨rfl, rfl⟩) hid
    · exact h.apart hzw hzw' hid
    · exact absurd hid (not_or.2 ⟨(hnew hzw).1.symm, (hnew hzw).2.symm⟩)
    · exact absurd hid (not_or.2 (hnew hzw'))
    · exact ⟨rfl, rfl⟩
  · rintro z w (hzw | ⟨rfl, rfl⟩)
    · obtain ⟨hz, hw⟩ := h.older hzw
      exact ⟨Nat.lt_of_lt_of_le hz hsid, Nat.lt_of_lt_of_le hw htid⟩
    · exact ⟨hx.2, hy.2⟩
  · rintro d e f (hde | ⟨rfl, rfl⟩) hf
    · simp only [hs] at hf
      obtain ⟨g, hg, hfg⟩ := h.forms hde hf
      exact ⟨g, by simp only [ht]; exact hg, .inl hfg⟩
    · simp only [hs] at hf
      have hempty : W.left.functions[d.id]? = none := h.unspent.1 _ hx.1
      rw [hempty] at hf
      cases hf
  · exact ⟨h.unspent.1.of_functions hsid hs, h.unspent.2.of_functions htid ht⟩
  · exact fun _ _ => .inl
  · rintro z w (hzw | ⟨rfl, rfl⟩)
    · exact .inl hzw
    · exact .inr hx.1
  · rintro z w (hzw | ⟨rfl, rfl⟩)
    · exact .inl hzw
    · exact .inr ⟨hx.1, hy.1⟩

end Sound

/-- The tandem after both runs have published a function form. -/
def publish (W : Tandem) (d e : Dual) (f g : Func) : Tandem :=
  ⟨(Slot.function d).write f W.left, (Slot.function e).write g W.right, W.pairs⟩

/-- **Both runs publish a function form.** -/
theorem Sound.publish (h : W.Sound C U) {d e : Dual} {f g : Func} (hde : W.pairs (.dual d) (.dual e))
    (hfg : W.pairs (.func f) (.func g)) (hd : W.left.functions[d.id]? = none)
    (he : W.right.functions[e.id]? = none) :
    (W.publish d e f g).Sound C U ∧ W.Later (W.publish d e f g) := by
  obtain ⟨hdid, heid⟩ := h.older hde
  refine ⟨⟨h.content, h.apart, h.older, ?_, h.unspent.1.write f hdid, h.unspent.2.write g heid⟩,
    ⟨fun _ _ => id, .inl, .write f hd, .write g he, ?_⟩⟩
  · intro d' e' k hde' hk
    have hk : ((Slot.function d).write f W.left).functions[d'.id]? = some k := hk
    show ∃ g', ((Slot.function e).write g W.right).functions[e'.id]? = some g' ∧ _
    rw [functions_write] at hk ⊢
    by_cases hid : d.id = d'.id
    · obtain ⟨hdd, hee⟩ := h.apart hde hde' (.inl (congrArg Identity.dual hid))
      cases hdd
      cases hee
      rw [if_pos rfl] at hk ⊢
      cases hk
      exact ⟨g, rfl, hfg⟩
    · have hne : e.id ≠ e'.id := fun heid => by
        obtain ⟨hdd, -⟩ := h.apart hde hde' (.inr (congrArg Identity.dual heid))
        cases hdd
        exact hid rfl
      rw [if_neg hid] at hk
      rw [if_neg hne]
      exact h.forms hde' hk
  · intro i hi hknown
    show ((Slot.function d).write f W.left).functions[i]? = _
    rw [functions_write, if_neg (hknown d e hde)]

/-- What was in step stays in step. -/
theorem Sound.publish_step (h : W.Sound C U) {d e d' e' : Dual} {f g k : Func}
    (hde : W.pairs (.dual d) (.dual e)) (hde' : W.pairs (.dual d') (.dual e'))
    (hstep : ∀ g, W.right.functions[e'.id]? = some g → ∃ f, W.left.functions[d'.id]? = some f)
    (hk : (W.publish d e f g).right.functions[e'.id]? = some k) :
    ∃ f', (W.publish d e f g).left.functions[d'.id]? = some f' := by
  have hk : ((Slot.function e).write g W.right).functions[e'.id]? = some k := hk
  show ∃ f', ((Slot.function d).write f W.left).functions[d'.id]? = some f'
  rw [functions_write] at hk ⊢
  by_cases hid : d.id = d'.id
  · exact ⟨f, if_pos hid⟩
  · have hne : e.id ≠ e'.id := fun heid => by
      obtain ⟨hdd, -⟩ := h.apart hde hde' (.inr (congrArg Identity.dual heid))
      cases hdd
      exact hid rfl
    rw [if_neg hne] at hk
    rw [if_neg hid]
    exact hstep k hk

/-! ## Other sides -/

/-- The tandem from other sides. -/
def seen (W : Tandem) (a b : Side) : Tandem where
  left := W.store a
  right := W.store b
  pairs x y := ∃ z w, W.pairs z w ∧ a.of z w = x ∧ b.of z w = y

/-- **A tandem is sound from any side on which published forms have counterparts.** -/
theorem Sound.seen (h : W.Sound C U) (a b : Side) (hU : ∀ V, U V → U' (V.seen a b))
    (hstep : ∀ {d e k}, W.pairs (.dual d) (.dual e) → (W.store a).functions[(a.of d e).id]? = some k →
      ∃ f, W.left.functions[d.id]? = some f) : (W.seen a b).Sound C U' where
  content := by
    rintro _ _ ⟨z, w, hzw, rfl, rfl⟩
    exact (h.content hzw).seen (fun x y hxy => ⟨x, y, hxy, rfl, rfl⟩) hU
  apart := by
    rintro _ _ _ _ ⟨z, w, hzw, rfl, rfl⟩ ⟨z', w', hzw', rfl, rfl⟩ hid
    have hall : z = z' ∧ w = w' := by
      rcases hid with hid | hid
      · cases a with
        | left => exact h.apart hzw hzw' (.inl hid)
        | right => exact h.apart hzw hzw' (.inr hid)
      · cases b with
        | left => exact h.apart hzw hzw' (.inl hid)
        | right => exact h.apart hzw hzw' (.inr hid)
    obtain ⟨rfl, rfl⟩ := hall
    exact ⟨rfl, rfl⟩
  older := by
    rintro _ _ ⟨z, w, hzw, rfl, rfl⟩
    obtain ⟨hz, hw⟩ := h.older hzw
    cases a <;> cases b
    · exact ⟨hz, hz⟩
    · exact ⟨hz, hw⟩
    · exact ⟨hw, hz⟩
    · exact ⟨hw, hw⟩
  forms := by
    rintro d' e' k ⟨z, w, hzw, hd, he⟩ hk
    have hdual : ∃ d e, z = .dual d ∧ w = .dual e := by
      have hcoupled := h.content hzw
      cases hcoupled with
      | dual => exact ⟨_, _, rfl, rfl⟩
      | func => cases a <;> cases hd
      | factory => cases a <;> cases hd
      | record => cases a <;> cases hd
    obtain ⟨d, e, rfl, rfl⟩ := hdual
    have hd : a.of d e = d' := by cases a <;> cases hd <;> rfl
    have he : b.of d e = e' := by cases b <;> cases he <;> rfl
    subst hd he
    obtain ⟨f, hf⟩ := hstep hzw hk
    obtain ⟨g, hg, hfg⟩ := h.forms hzw hf
    have hread : ∀ c : Side, (W.store c).functions[(c.of d e).id]? = some (c.of f g) := fun c => by
      cases c with
      | left => exact hf
      | right => exact hg
    have hkeq : k = a.of f g := Option.some.inj (hk.symm.trans (hread a))
    subst hkeq
    exact ⟨b.of f g, hread b, _, _, hfg, by cases a <;> rfl, by cases b <;> rfl⟩
  unspent := by
    obtain ⟨hl, hr⟩ := h.unspent
    cases a <;> cases b
    · exact ⟨hl, hl⟩
    · exact ⟨hl, hr⟩
    · exact ⟨hr, hl⟩
    · exact ⟨hr, hr⟩

end Tandem

/-! ## One run beside itself -/

/-- No tree is put in place of another one. -/
def Untouched (V : View) : Prop := V = View.plain

theorem Untouched.plain : Untouched View.plain := rfl

theorem Untouched.seen (a b : Side) : ∀ V, Untouched V → Untouched (V.seen a b) := by
  rintro _ rfl
  exact View.seen_plain a b

/-- In the store, the objects with `K` are made of one another, have identities of their own, and their
function forms are among them. -/
def Resides (C : Contract) (K : Object → Prop) (s : Store) : Prop :=
  (Tandem.mk s s (Pairing.diagonal K)).Sound C Untouched

namespace Resides

variable {K : Object → Prop} {s t : Store} {W : Tandem}

theorem older (h : Resides C K s) {x : Object} (hx : K x) : x.id < s.nextId :=
  (Tandem.Sound.older h ⟨hx, rfl⟩).1

theorem apart (h : Resides C K s) {x y : Object} (hx : K x) (hy : K y) (hid : x.identity = y.identity) :
    x = y := (Tandem.Sound.apart h ⟨hx, rfl⟩ ⟨hy, rfl⟩ (.inl hid)).1

theorem unspent (h : Resides C K s) : s.Unspent := (Tandem.Sound.unspent h).1

theorem form (h : Resides C K s) {d : Dual} {f : Func} (hd : K (.dual d)) (hf : s.functions[d.id]? = some f) :
    K (.func f) := by
  obtain ⟨_, _, hk, -⟩ := Tandem.Sound.forms h ⟨hd, rfl⟩ hf
  exact hk

theorem views (h : Resides C K s) (hU : ∀ V, Untouched V → U V) : (Tandem.mk s s (.diagonal K)).Sound C U where
  content hxy := (Tandem.Sound.content h hxy).mono (fun _ _ => id) hU
  apart := Tandem.Sound.apart h
  older := Tandem.Sound.older h
  forms := Tandem.Sound.forms h
  unspent := Tandem.Sound.unspent h

/-- Before anything has run, there is nothing to reside. -/
theorem initial : Resides C (fun _ => False) .initial where
  content h := h.1.elim
  apart h _ := h.1.elim
  older h := h.1.elim
  forms h := h.1.elim
  unspent := ⟨fun _ _ => Std.HashMap.getElem?_empty, fun _ _ => Std.HashMap.getElem?_empty⟩

/-- A new object made of what resides in the store resides there. -/
theorem make (h : Resides C K s) {x : Object} (hx : Object.Coupled C Untouched (.diagonal K) x x)
    (hid : x.id = s.nextId) : Resides C (fun y => K y ∨ y = x) { s with nextId := s.nextId + 1 } := by
  let t : Store := { s with nextId := s.nextId + 1 }
  have hnew : s.nextId ≤ x.id ∧ x.id < t.nextId :=
    ⟨Nat.le_of_eq hid.symm, Nat.lt_succ_of_le (Nat.le_of_eq hid)⟩
  have hpairs : (fun y z => Pairing.diagonal K y z ∨ (y = x ∧ z = x)) =
      Pairing.diagonal fun y => K y ∨ y = x := by
    funext y z
    refine propext ⟨?_, ?_⟩
    · rintro (⟨hy, rfl⟩ | ⟨rfl, rfl⟩)
      · exact ⟨.inl hy, rfl⟩
      · exact ⟨.inr rfl, rfl⟩
    · rintro ⟨hy | rfl, rfl⟩
      · exact .inl ⟨hy, rfl⟩
      · exact .inr ⟨rfl, rfl⟩
  have hadded := Tandem.Sound.add (s := t) (t := t) h rfl rfl hnew hnew hx
  unfold Resides
  rw [← hpairs]
  exact hadded.1

/-- What resides in a store does so in later stores that have published nothing for it. -/
theorem later (h : Resides C K s) (hst : s.Extends t) (ht : t.Unspent)
    (hforms : ∀ d, K (.dual d) → t.functions[d.id]? = s.functions[d.id]?) : Resides C K t :=
  h.withStores hst hst ht ht fun d _ hde => hforms d hde.1

/-- **The objects of the run on the left reside in its store.** -/
theorem of_left (h : W.Sound C Untouched) : Resides C (fun x => ∃ y, W.pairs x y) W.left := by
  have hseen : (W.seen .left .left).Sound C Untouched :=
    h.seen .left .left (Untouched.seen _ _) fun _ hk => ⟨_, hk⟩
  have hpairs : (W.seen .left .left).pairs = Pairing.diagonal fun x => ∃ y, W.pairs x y := by
    funext x y
    refine propext ⟨?_, ?_⟩
    · rintro ⟨z, w, hzw, rfl, rfl⟩
      exact ⟨⟨w, hzw⟩, rfl⟩
    · rintro ⟨⟨w, hxw⟩, rfl⟩
      exact ⟨x, w, hxw, rfl, rfl⟩
  unfold Resides
  rw [← hpairs]
  exact hseen

end Resides

end DualForm
