import DualForm.Proofs.Laziness.Worlds

/-!
# What is done with values that stand for each other

* `ExceptRelated R` — results that are related by `R`, or the same error.

Principal results: values that stand for each other in a sound world are printed, typed and compared alike
(`text_eq`, `ty_eq`, `same_eq`), and operators and conversions lead to the same error or to values that stand
for each other (`applyBinary_related`, `applyUnary_related`, `expect_related`).
-/

namespace DualForm

/-- Results that are related, or the same error. -/
inductive ExceptRelated {α β : Type} (R : α → β → Prop) : Except Error α → Except Error β → Prop
  | ok {a : α} {b : β} : R a b → ExceptRelated R (.ok a) (.ok b)
  | error (e : Error) : ExceptRelated R (.error e) (.error e)

namespace World

variable {G : Ground} {W : World} {v w v' w' : Value}

namespace Sound

theorem signature_eq (h : W.Sound G) {d e : Dual} (hde : W.duals d e) : d.signature = e.signature := by
  unfold Dual.signature
  rw [(h.dual hde).kind, (h.dual hde).source, (h.dual hde).result]

mutual

theorem text_eq (h : W.Sound G) : ∀ {v w : Value}, W.value v w → v.text = w.text
  | _, _, .scalar _ => rfl
  | _, _, .list hvs => by
      unfold Value.text
      rw [texts_eq h hvs]
  | _, _, .record _ _ _ => rfl
  | _, _, .func hf => by
      unfold Value.text
      rw [(h.function_related hf).1]
  | _, _, .dual hd => by
      unfold Value.text
      rw [h.signature_eq hd]

theorem texts_eq (h : W.Sound G) : ∀ {vs ws : List Value}, W.values vs ws → Value.texts vs = Value.texts ws
  | _, _, .nil => rfl
  | _, _, .cons hv hvs => by
      unfold Value.texts
      rw [text_eq h hv, texts_eq h hvs]

end

theorem ty_eq (h : W.Sound G) : ∀ {v w : Value}, W.value v w → Value.ty v = Value.ty w
  | _, _, .scalar _ => rfl
  | _, _, .list .nil => rfl
  | _, _, .list (.cons hv _) => by
      unfold Value.ty
      rw [ty_eq h hv]
  | _, _, .record _ _ _ => rfl
  | _, _, .func hf => by
      unfold Value.ty
      rw [(h.function_related hf).1]
  | _, _, .dual hd => by
      unfold Value.ty
      rw [h.signature_eq hd]

theorem plain_eq (h : W.Sound G) (hv : W.value v w) : Value.plain v = Value.plain w := by
  have htext := h.text_eq hv
  cases hv with
  | scalar _ => rfl
  | list | record | func | dual => exact htext

mutual

theorem same_eq (h : W.Sound G) : ∀ {v w v' w' : Value}, W.value v w → W.value v' w' →
    Value.same v v' = Value.same w w'
  | _, _, _, _, .scalar _, .scalar _ => rfl
  | v, _, _, _, .scalar hv, .list _ => by cases v <;> first | rfl | exact absurd hv Bool.false_ne_true
  | v, _, _, _, .scalar _, .record _ _ _ => by cases v <;> rfl
  | v, _, _, _, .scalar hv, .func _ => by cases v <;> first | rfl | exact absurd hv Bool.false_ne_true
  | v, _, _, _, .scalar hv, .dual _ => by cases v <;> first | rfl | exact absurd hv Bool.false_ne_true
  | _, _, v, _, .list _, .scalar hv => by cases v <;> first | rfl | exact absurd hv Bool.false_ne_true
  | _, _, v, _, .record _ _ _, .scalar _ => by cases v <;> rfl
  | _, _, v, _, .func _, .scalar hv => by cases v <;> first | rfl | exact absurd hv Bool.false_ne_true
  | _, _, v, _, .dual _, .scalar hv => by cases v <;> first | rfl | exact absurd hv Bool.false_ne_true
  | _, _, _, _, .list hvs, .list hvs' => by
      unfold Value.same
      exact sameAll_eq h hvs hvs'
  | _, _, _, _, .record _ _ _, .record _ _ _ => rfl
  | _, _, _, _, .func hf, .func hf' => by
      unfold Value.same
      rw [decide_eq_decide]
      exact h.function_same hf hf'
  | _, _, _, _, .dual hd, .dual hd' => by
      unfold Value.same
      rw [decide_eq_decide]
      exact h.dual_same hd hd'
  | _, _, _, _, .list _, .record _ _ _ | _, _, _, _, .list _, .func _ | _, _, _, _, .list _, .dual _
  | _, _, _, _, .record _ _ _, .list _ | _, _, _, _, .record _ _ _, .func _
  | _, _, _, _, .record _ _ _, .dual _ | _, _, _, _, .func _, .list _ | _, _, _, _, .func _, .record _ _ _
  | _, _, _, _, .func _, .dual _ | _, _, _, _, .dual _, .list _ | _, _, _, _, .dual _, .record _ _ _
  | _, _, _, _, .dual _, .func _ => rfl

theorem sameAll_eq (h : W.Sound G) : ∀ {vs ws vs' ws' : List Value}, W.values vs ws → W.values vs' ws' →
    Value.sameAll vs vs' = Value.sameAll ws ws'
  | _, _, _, _, .nil, .nil | _, _, _, _, .nil, .cons _ _ | _, _, _, _, .cons _ _, .nil => rfl
  | _, _, _, _, .cons hv hvs, .cons hv' hvs' => by
      unfold Value.sameAll
      rw [same_eq h hv hv', sameAll_eq h hvs hvs']

end

theorem binaryResult_eq (h : W.Sound G) (op : BinaryOp) (hv : W.value v w) (hv' : W.value v' w') :
    Value.binaryResult? op v v' = Value.binaryResult? op w w' := by
  have hplain := h.plain_eq hv
  have hplain' := h.plain_eq hv'
  unfold Value.binaryResult?
  rw [h.same_eq hv hv']
  split
  · rfl
  split
  · rfl
  -- operands without identity are the same, and of the others only strings are asked for their text
  cases hv with
  | scalar hs =>
      cases hv' with
      | scalar hs' => rfl
      | list | record | func | dual =>
          cases v <;> first | rfl | exact absurd hs Bool.false_ne_true | (dsimp only; rw [hplain'])
  | list | record | func | dual =>
      cases hv' with
      | scalar hs' => cases v' <;> first | rfl | exact absurd hs' Bool.false_ne_true | (dsimp only; rw [hplain])
      | list | record | func | dual => rfl

theorem applyBinary_related (h : W.Sound G) (op : BinaryOp) (hv : W.value v w) (hv' : W.value v' w') :
    ExceptRelated W.value (Value.applyBinary op v v') (Value.applyBinary op w w') := by
  have htexts : Value.texts [v, v'] = Value.texts [w, w'] := h.texts_eq (.cons hv (.cons hv' .nil))
  unfold Value.applyBinary Value.unsupportedOperands
  rw [← h.binaryResult_eq op hv hv', htexts]
  cases hresult : Value.binaryResult? op v v' with
  | some c => exact .ok (.scalar (binaryResult_scalar hresult))
  | none => exact .error _

theorem convertValue_related (h : W.Sound G) (hv : W.value v w) (ty : Ty) :
    ExceptRelated W.value (Value.convertValue v ty) (Value.convertValue w ty) := by
  have hchecked : ExceptRelated W.value
      (if ty.accepts (Value.ty v) then .ok v else .error (.typeMismatch ty.text (Value.ty v).text))
      (if ty.accepts (Value.ty w) then .ok w else .error (.typeMismatch ty.text (Value.ty w).text)) := by
    rw [← h.ty_eq hv]
    split
    · exact .ok hv
    · exact .error _
  cases hv with
  | scalar hs =>
      unfold Value.convertValue
      split
      · exact .ok (.scalar rfl)
      · exact .ok (.scalar rfl)
      · exact .ok (.scalar rfl)
      · split
        · exact .ok (.scalar hs)
        · exact .error _
  | list | record | func | dual => exact hchecked

theorem applyUnary_related (h : W.Sound G) (op : UnaryOp) (hv : W.value v w) (ty : Ty) :
    ExceptRelated W.value (Value.applyUnary op v ty) (Value.applyUnary op w ty) := by
  have htexts : Value.texts [v] = Value.texts [w] := h.texts_eq (.cons hv .nil)
  have hunsupported : ∀ symbol, ExceptRelated W.value (.error (Value.unsupportedOperands symbol [v]))
      (.error (Value.unsupportedOperands symbol [w])) := fun symbol => by
    unfold Value.unsupportedOperands
    rw [htexts]
    exact .error _
  cases op with
  | convert => exact h.convertValue_related hv ty
  | not | negate =>
      cases hv with
      | scalar hs => cases v <;> first | exact .ok (.scalar rfl) | exact .error _
      | list | record | func | dual => exact hunsupported _

theorem expectBool_eq (h : W.Sound G) (context : String) (hv : W.value v w) :
    Value.expectBool context v = Value.expectBool context w := by
  have hty := h.ty_eq hv
  cases hv with
  | scalar _ => rfl
  | list | record | func | dual =>
      unfold Value.expectBool
      dsimp only
      rw [hty]

theorem expect_related (h : W.Sound G) (kind : DualKind) (hv : W.value v w) :
    ExceptRelated W.duals (Dual.expect kind v) (Dual.expect kind w) := by
  have hty := h.ty_eq hv
  unfold Dual.expect
  rw [hty]
  cases hv with
  | scalar hs => cases v <;> first | exact absurd hs Bool.false_ne_true | exact .error _
  | list | record | func => exact .error _
  | @dual d e hde =>
      have hkind := (h.dual hde).kind
      unfold Value.dual?
      dsimp only
      rw [← hkind]
      split
      · rename_i hfound
        split at hfound <;> cases hfound
        rename_i hk
        rw [if_pos hk]
        exact .ok hde
      · rename_i hfound
        split at hfound
        · cases hfound
        · rename_i hk
          rw [if_neg hk]
          exact .error _

end Sound

theorem isNull_eq (hv : W.value v w) : v.isNull = w.isNull := by cases hv <;> rfl

/-- Values that stand for each other hold no factories. -/
theorem no_factory (hv : W.value v w) : Value.factory? v = none ∧ Value.factory? w = none := by
  cases hv with
  | scalar hs => cases v <;> first | exact ⟨rfl, rfl⟩ | exact absurd hs Bool.false_ne_true
  | list | record | func | dual => exact ⟨rfl, rfl⟩

end World

end DualForm
