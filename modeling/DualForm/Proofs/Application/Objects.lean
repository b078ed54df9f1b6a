import DualForm.Proofs.Laziness.Values

/-!
# Values of two runs, object by object

Two runs of the machine give out different identities. What they compute is compared by saying which objects
of the one run stand for which objects of the other.

* `Object` — what has an identity in a value: functions, duals, factories and records; `Object.identity`.
* `Pairing` — objects that stand for each other; `Pairing.Faithful` — one to one, and as far as their texts
  and types show the same.
* `Value.Coupled P v w` — the same value, up to the objects paired by `P`.

Principal results: `Value.Coupled.seen` — values are coupled from any two sides; `Value.Coupled.eq` — a value
coupled with one whose objects are paired with themselves only is that value; and under a faithful pairing
coupled values are printed, typed and compared alike, and operators and conversions lead to the same error
or to coupled values (`applyBinary_coupled`, `applyUnary_coupled`, `expect_coupled`).
-/

namespace DualForm

/-- What has an identity in a value. -/
inductive Object where
  | func (f : Func)
  | dual (d : Dual)
  | factory (k : Factory)
  /-- The fields of a record are parts of the value. -/
  | record (id : Nat)

/-- What tells an object from all others. -/
inductive Identity where
  | func (id : Nat)
  | dual (id : Nat)
  | factory (id : Nat)
  | record (id : Nat)
deriving DecidableEq

namespace Object

def identity : Object → Identity
  | .func f => .func f.id
  | .dual d => .dual d.id
  | .factory k => .factory k.id
  | .record id => .record id

/-- The number the identity was given out under. -/
def id : Object → Nat
  | .func f => f.id
  | .dual d => d.id
  | .factory k => k.id
  | .record id => id

theorem id_eq {x y : Object} (h : x.identity = y.identity) : x.id = y.id := by
  cases x <;> cases y <;> simp_all [identity, id]

end Object

/-- Objects of one run, and the objects of another one that stand for them. -/
abbrev Pairing := Object → Object → Prop

/-- Every object with `K`, paired with itself. -/
def Pairing.diagonal (K : Object → Prop) : Pairing := fun x y => K x ∧ x = y

namespace Value

mutual

/-- The same value, up to the objects in it. -/
inductive Coupled (P : Pairing) : Value → Value → Prop
  | scalar {v : Value} : v.isScalar = true → Coupled P v v
  | list {vs ws : List Value} : AllCoupled P vs ws → Coupled P (.list vs) (.list ws)
  | record {i j : Nat} (declaring : DeclaringType) {fs gs : List (String × Value)} :
      P (.record i) (.record j) → FieldsCoupled P fs gs →
      Coupled P (.record i declaring fs) (.record j declaring gs)
  | func {f g : Func} : P (.func f) (.func g) → Coupled P (.func f) (.func g)
  | dual {d e : Dual} : P (.dual d) (.dual e) → Coupled P (.dual d) (.dual e)
  | factory {k l : Factory} : P (.factory k) (.factory l) → Coupled P (.factory k) (.factory l)

/-- The same values one by one. -/
inductive AllCoupled (P : Pairing) : List Value → List Value → Prop
  | nil : AllCoupled P [] []
  | cons {v w : Value} {vs ws : List Value} : Coupled P v w → AllCoupled P vs ws →
      AllCoupled P (v :: vs) (w :: ws)

/-- The same fields one by one. -/
inductive FieldsCoupled (P : Pairing) : List (String × Value) → List (String × Value) → Prop
  | nil : FieldsCoupled P [] []
  | cons (name : String) {v w : Value} {fs gs : List (String × Value)} : Coupled P v w →
      FieldsCoupled P fs gs → FieldsCoupled P ((name, v) :: fs) ((name, w) :: gs)

end

variable {P Q : Pairing} {a b : Side} {v w v' w' : Value}

mutual

/-- **Values are coupled by the pairs that match what is in them, seen from any two sides.** -/
theorem Coupled.seen (h : ∀ x y, P x y → Q (a.of x y) (b.of x y)) :
    ∀ {v w : Value}, Coupled P v w → Coupled Q (a.of v w) (b.of v w)
  | _, _, .scalar hv => by cases a <;> cases b <;> exact .scalar hv
  | _, _, .list hvs => by
      have hvs := hvs.seen h
      cases a <;> cases b <;> exact .list hvs
  | _, _, .record declaring hid hfs => by
      have hid := h _ _ hid
      have hfs := hfs.seen h
      cases a <;> cases b <;> exact .record declaring hid hfs
  | _, _, .func hf => by
      have hf := h _ _ hf
      cases a <;> cases b <;> exact .func hf
  | _, _, .dual hd => by
      have hd := h _ _ hd
      cases a <;> cases b <;> exact .dual hd
  | _, _, .factory hk => by
      have hk := h _ _ hk
      cases a <;> cases b <;> exact .factory hk

theorem AllCoupled.seen (h : ∀ x y, P x y → Q (a.of x y) (b.of x y)) :
    ∀ {vs ws : List Value}, AllCoupled P vs ws → AllCoupled Q (a.of vs ws) (b.of vs ws)
  | _, _, .nil => by cases a <;> cases b <;> exact .nil
  | _, _, .cons hv hvs => by
      have hv := hv.seen h
      have hvs := hvs.seen h
      cases a <;> cases b <;> exact .cons hv hvs

theorem FieldsCoupled.seen (h : ∀ x y, P x y → Q (a.of x y) (b.of x y)) :
    ∀ {fs gs : List (String × Value)}, FieldsCoupled P fs gs → FieldsCoupled Q (a.of fs gs) (b.of fs gs)
  | _, _, .nil => by cases a <;> cases b <;> exact .nil
  | _, _, .cons name hv hfs => by
      have hv := hv.seen h
      have hfs := hfs.seen h
      cases a <;> cases b <;> exact .cons name hv hfs

end

theorem Coupled.mono (h : ∀ x y, P x y → Q x y) (hv : Coupled P v w) : Coupled Q v w :=
  hv.seen (a := .left) (b := .right) h

theorem AllCoupled.mono (h : ∀ x y, P x y → Q x y) {vs ws : List Value} (hvs : AllCoupled P vs ws) :
    AllCoupled Q vs ws := hvs.seen (a := .left) (b := .right) h

mutual

/-- **A value whose objects are paired with themselves only is coupled with itself only.** -/
theorem Coupled.eq (h : ∀ x y, P x y → Q x x → y = x) :
    ∀ {v w : Value}, Coupled P v w → Coupled Q v v → w = v
  | _, _, .scalar _, _ => rfl
  | _, _, .list hvs, .list hvs' => by rw [hvs.eq h hvs']
  | _, _, .list _, .scalar hs => absurd hs Bool.false_ne_true
  | _, _, .record declaring hid hfs, .record _ hid' hfs' => by
      cases h _ _ hid hid'
      rw [hfs.eq h hfs']
  | _, _, .record _ _ _, .scalar hs => absurd hs Bool.false_ne_true
  | _, _, .func hf, .func hf' => by
      cases h _ _ hf hf'
      rfl
  | _, _, .func _, .scalar hs => absurd hs Bool.false_ne_true
  | _, _, .dual hd, .dual hd' => by
      cases h _ _ hd hd'
      rfl
  | _, _, .dual _, .scalar hs => absurd hs Bool.false_ne_true
  | _, _, .factory hk, .factory hk' => by
      cases h _ _ hk hk'
      rfl
  | _, _, .factory _, .scalar hs => absurd hs Bool.false_ne_true

theorem AllCoupled.eq (h : ∀ x y, P x y → Q x x → y = x) :
    ∀ {vs ws : List Value}, AllCoupled P vs ws → AllCoupled Q vs vs → ws = vs
  | _, _, .nil, _ => rfl
  | _, _, .cons hv hvs, .cons hv' hvs' => by rw [hv.eq h hv', hvs.eq h hvs']

theorem FieldsCoupled.eq (h : ∀ x y, P x y → Q x x → y = x) :
    ∀ {fs gs : List (String × Value)}, FieldsCoupled P fs gs → FieldsCoupled Q fs fs → gs = fs
  | _, _, .nil, _ => rfl
  | _, _, .cons name hv hfs, .cons _ hv' hfs' => by rw [hv.eq h hv', hfs.eq h hfs']

end

theorem AllCoupled.length : ∀ {vs ws : List Value}, AllCoupled P vs ws → vs.length = ws.length
  | _, _, .nil => rfl
  | _, _, .cons _ hvs => congrArg Nat.succ hvs.length

theorem AllCoupled.single {vs ws : List Value} (h : AllCoupled P vs ws) (hcount : vs.length = 1) :
    ∃ v w, vs = [v] ∧ ws = [w] ∧ Coupled P v w := by
  cases h with
  | nil => cases hcount
  | cons hv hvs =>
      cases hvs with
      | nil => exact ⟨_, _, rfl, rfl, hv⟩
      | cons => cases hcount

theorem AllCoupled.pair {vs ws : List Value} (h : AllCoupled P vs ws) (hcount : vs.length = 2) :
    ∃ v v' w w', vs = [v, v'] ∧ ws = [w, w'] ∧ Coupled P v w ∧ Coupled P v' w' := by
  cases h with
  | nil => cases hcount
  | cons hv hvs =>
      obtain ⟨v', w', rfl, rfl, hv'⟩ := hvs.single (Nat.succ.inj hcount)
      exact ⟨_, _, _, _, rfl, rfl, hv, hv'⟩

theorem AllCoupled.getD (hv : v.isScalar = true) : ∀ {vs ws : List Value} (i : Nat),
    AllCoupled P vs ws → Coupled P (vs.getD i v) (ws.getD i v)
  | _, _, _, .nil => .scalar hv
  | _, _, 0, .cons hw _ => hw
  | _, _, i + 1, .cons _ hvs => hvs.getD hv i

theorem FieldsCoupled.fieldOf? (name : String) : ∀ {fs gs : List (String × Value)},
    FieldsCoupled P fs gs → (Datum.fieldOf? fs name = none ∧ Datum.fieldOf? gs name = none) ∨
      ∃ v w, Datum.fieldOf? fs name = some v ∧ Datum.fieldOf? gs name = some w ∧ Coupled P v w
  | _, _, .nil => .inl ⟨rfl, rfl⟩
  | _, _, .cons key hv hfs => by
      unfold Datum.fieldOf?
      rw [List.find?_cons, List.find?_cons]
      by_cases hkey : key = name
      · simp only [hkey, decide_true]
        exact .inr ⟨_, _, rfl, rfl, hv⟩
      · simp only [hkey, decide_false]
        exact hfs.fieldOf? name

/-- Values without parts and identity are coupled with themselves only. -/
theorem Coupled.eq_of_scalar (h : Coupled P v w) (hs : v.isScalar = true ∨ w.isScalar = true) : v = w := by
  cases h with
  | scalar _ => rfl
  | list | record | func | dual | factory => rcases hs with hs | hs <;> cases hs

end Value

/-! ## What shows of coupled values -/

/-- Objects are paired one to one, and show the same. -/
structure Pairing.Faithful (P : Pairing) : Prop where
  same : ∀ {x y x' y'}, P x y → P x' y' → (x.identity = x'.identity ↔ y.identity = y'.identity)
  arity : ∀ {f g}, P (.func f) (.func g) → f.arity = g.arity
  kind : ∀ {d e}, P (.dual d) (.dual e) → d.kind = e.kind
  dual : ∀ {d e}, P (.dual d) (.dual e) → d.signature = e.signature
  factory : ∀ {k l}, P (.factory k) (.factory l) → k.signature = l.signature

namespace Pairing.Faithful

open Value (Coupled AllCoupled)

variable {P : Pairing} {v w v' w' : Value}

mutual

theorem text_eq (h : P.Faithful) : ∀ {v w : Value}, Coupled P v w → v.text = w.text
  | _, _, .scalar _ => rfl
  | _, _, .list hvs => by
      unfold Value.text
      rw [texts_eq h hvs]
  | _, _, .record _ _ _ => rfl
  | _, _, .func hf => by
      unfold Value.text
      rw [h.arity hf]
  | _, _, .dual hd => by
      unfold Value.text
      rw [h.dual hd]
  | _, _, .factory hk => by
      unfold Value.text
      rw [h.factory hk]

theorem texts_eq (h : P.Faithful) : ∀ {vs ws : List Value}, AllCoupled P vs ws →
    Value.texts vs = Value.texts ws
  | _, _, .nil => rfl
  | _, _, .cons hv hvs => by
      unfold Value.texts
      rw [text_eq h hv, texts_eq h hvs]

end

theorem ty_eq (h : P.Faithful) : ∀ {v w : Value}, Coupled P v w → Value.ty v = Value.ty w
  | _, _, .scalar _ => rfl
  | _, _, .list .nil => rfl
  | _, _, .list (.cons hv _) => by
      unfold Value.ty
      rw [ty_eq h hv]
  | _, _, .record _ _ _ => rfl
  | _, _, .func hf => by
      unfold Value.ty
      rw [h.arity hf]
  | _, _, .dual hd => by
      unfold Value.ty
      rw [h.dual hd]
  | _, _, .factory hk => by
      unfold Value.ty
      rw [h.factory hk]
termination_by v => sizeOf v

theorem plain_eq (h : P.Faithful) (hv : Coupled P v w) : Value.plain v = Value.plain w := by
  have htext := h.text_eq hv
  cases hv with
  | scalar _ => rfl
  | list | record | func | dual | factory => exact htext

/-- Values of which one is without parts and identity, and the other is not, differ. -/
theorem same_scalar (hv : v.isScalar = true) (hw : w.isScalar = false) :
    Value.same v w = false ∧ Value.same w v = false := by
  cases v <;> cases hv <;> cases w <;> first | exact ⟨rfl, rfl⟩ | cases hw

mutual

theorem same_eq (h : P.Faithful) : ∀ {v w v' w' : Value}, Coupled P v w → Coupled P v' w' →
    Value.same v v' = Value.same w w'
  | _, _, _, _, .scalar _, .scalar _ => rfl
  | _, _, _, _, .scalar hv, .list _ | _, _, _, _, .scalar hv, .record _ _ _
  | _, _, _, _, .scalar hv, .func _ | _, _, _, _, .scalar hv, .dual _
  | _, _, _, _, .scalar hv, .factory _ => by rw [(same_scalar hv rfl).1, (same_scalar hv rfl).1]
  | _, _, _, _, .list _, .scalar hv | _, _, _, _, .record _ _ _, .scalar hv
  | _, _, _, _, .func _, .scalar hv | _, _, _, _, .dual _, .scalar hv
  | _, _, _, _, .factory _, .scalar hv => by rw [(same_scalar hv rfl).2, (same_scalar hv rfl).2]
  | _, _, _, _, .list hvs, .list hvs' => by
      unfold Value.same
      exact sameAll_eq h hvs hvs'
  | _, _, _, _, .record _ hi _, .record _ hj _ => by
      unfold Value.same
      rw [decide_eq_decide]
      simpa [Object.identity] using h.same hi hj
  | _, _, _, _, .func hf, .func hg => by
      unfold Value.same
      rw [decide_eq_decide]
      simpa [Object.identity] using h.same hf hg
  | _, _, _, _, .dual hd, .dual he => by
      unfold Value.same
      rw [decide_eq_decide]
      simpa [Object.identity] using h.same hd he
  | _, _, _, _, .factory hk, .factory hl => by
      unfold Value.same
      rw [decide_eq_decide]
      simpa [Object.identity] using h.same hk hl
  | _, _, _, _, .list _, .record _ _ _ | _, _, _, _, .list _, .func _ | _, _, _, _, .list _, .dual _
  | _, _, _, _, .list _, .factory _ | _, _, _, _, .record _ _ _, .list _
  | _, _, _, _, .record _ _ _, .func _ | _, _, _, _, .record _ _ _, .dual _
  | _, _, _, _, .record _ _ _, .factory _ | _, _, _, _, .func _, .list _
  | _, _, _, _, .func _, .record _ _ _ | _, _, _, _, .func _, .dual _ | _, _, _, _, .func _, .factory _
  | _, _, _, _, .dual _, .list _ | _, _, _, _, .dual _, .record _ _ _ | _, _, _, _, .dual _, .func _
  | _, _, _, _, .dual _, .factory _ | _, _, _, _, .factory _, .list _
  | _, _, _, _, .factory _, .record _ _ _ | _, _, _, _, .factory _, .func _
  | _, _, _, _, .factory _, .dual _ => rfl

theorem sameAll_eq (h : P.Faithful) : ∀ {vs ws vs' ws' : List Value}, AllCoupled P vs ws →
    AllCoupled P vs' ws' → Value.sameAll vs vs' = Value.sameAll ws ws'
  | _, _, _, _, .nil, .nil | _, _, _, _, .nil, .cons _ _ | _, _, _, _, .cons _ _, .nil => rfl
  | _, _, _, _, .cons hv hvs, .cons hv' hvs' => by
      unfold Value.sameAll
      rw [same_eq h hv hv', sameAll_eq h hvs hvs']

end

theorem binaryResult_eq (h : P.Faithful) (op : BinaryOp) (hv : Coupled P v w) (hv' : Coupled P v' w') :
    Value.binaryResult? op v v' = Value.binaryResult? op w w' := by
  have hplain := h.plain_eq hv
  have hplain' := h.plain_eq hv'
  unfold Value.binaryResult?
  rw [h.same_eq hv hv']
  split
  · rfl
  split
  · rfl
  -- operands without identity are the same, and of the others only strings are asked for their text
  cases hv with
  | scalar hs =>
      cases hv' with
      | scalar hs' => rfl
      | list | record | func | dual | factory =>
          cases v <;> first | rfl | exact absurd hs Bool.false_ne_true | (dsimp only; rw [hplain'])
  | list | record | func | dual | factory =>
      cases hv' with
      | scalar hs' =>
          cases v' <;> first | rfl | exact absurd hs' Bool.false_ne_true | (dsimp only; rw [hplain])
      | list | record | func | dual | factory => rfl

theorem applyBinary_coupled (h : P.Faithful) (op : BinaryOp) (hv : Coupled P v w) (hv' : Coupled P v' w') :
    ExceptRelated (Coupled P) (Value.applyBinary op v v') (Value.applyBinary op w w') := by
  have htexts : Value.texts [v, v'] = Value.texts [w, w'] := h.texts_eq (.cons hv (.cons hv' .nil))
  unfold Value.applyBinary Value.unsupportedOperands
  rw [← h.binaryResult_eq op hv hv', htexts]
  cases hresult : Value.binaryResult? op v v' with
  | some c => exact .ok (.scalar (binaryResult_scalar hresult))
  | none => exact .error _

theorem convertValue_coupled (h : P.Faithful) (hv : Coupled P v w) (ty : Ty) :
    ExceptRelated (Coupled P) (Value.convertValue v ty) (Value.convertValue w ty) := by
  have hchecked : ExceptRelated (Coupled P)
      (if ty.accepts (Value.ty v) then .ok v else .error (.typeMismatch ty.text (Value.ty v).text))
      (if ty.accepts (Value.ty w) then .ok w else .error (.typeMismatch ty.text (Value.ty w).text)) := by
    rw [← h.ty_eq hv]
    split
    · exact .ok hv
    · exact .error _
  cases hv with
  | scalar hs =>
      unfold Value.convertValue
      split
      · exact .ok (.scalar rfl)
      · exact .ok (.scalar rfl)
      · exact .ok (.scalar rfl)
      · split
        · exact .ok (.scalar hs)
        · exact .error _
  | list | record | func | dual | factory => exact hchecked

theorem applyUnary_coupled (h : P.Faithful) (op : UnaryOp) (hv : Coupled P v w) (ty : Ty) :
    ExceptRelated (Coupled P) (Value.applyUnary op v ty) (Value.applyUnary op w ty) := by
  have htexts : Value.texts [v] = Value.texts [w] := h.texts_eq (.cons hv .nil)
  have hunsupported : ∀ symbol, ExceptRelated (Coupled P) (.error (Value.unsupportedOperands symbol [v]))
      (.error (Value.unsupportedOperands symbol [w])) := fun symbol => by
    unfold Value.unsupportedOperands
    rw [htexts]
    exact .error _
  cases op with
  | convert => exact h.convertValue_coupled hv ty
  | not | negate =>
      cases hv with
      | scalar hs => cases v <;> first | exact .ok (.scalar rfl) | exact .error _
      | list | record | func | dual | factory => exact hunsupported _

theorem expectBool_eq (h : P.Faithful) (context : String) (hv : Coupled P v w) :
    Value.expectBool context v = Value.expectBool context w := by
  have hty := h.ty_eq hv
  cases hv with
  | scalar _ => rfl
  | list | record | func | dual | factory =>
      unfold Value.expectBool
      dsimp only
      rw [hty]

theorem expect_coupled (h : P.Faithful) (kind : DualKind) (hv : Coupled P v w) :
    ExceptRelated (fun d e => P (.dual d) (.dual e)) (Dual.expect kind v) (Dual.expect kind w) := by
  have hty := h.ty_eq hv
  unfold Dual.expect
  rw [hty]
  cases hv with
  | scalar hs => cases v <;> first | exact absurd hs Bool.false_ne_true | exact .error _
  | list | record | func | factory => exact .error _
  | @dual d e hde =>
      unfold Value.dual?
      dsimp only
      rw [← h.kind hde]
      by_cases hk : d.kind = kind
      · simp only [if_pos hk]
        exact .ok hde
      · simp only [if_neg hk]
        exact .error _

end Pairing.Faithful

end DualForm
