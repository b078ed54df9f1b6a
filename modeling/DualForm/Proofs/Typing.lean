import DualForm.Proofs.Outcome
import DualForm.Proofs.Steps

/-!
# Static types and the types of values

Trees of built-in operators over booleans, integers and strings. Their static type is read off the tree
(`Tree.ty`), the type of their value comes out of the operators (`Value.applyBinary`), and the two are
separate tables.

* `Ty.isElementary` — the types of booleans, integers and strings.
* `BinaryOp.resultTy?` — the type an operator gives on operands of elementary types.
* `Tree.Elementary` — constants and parameters of elementary types under built-in operators, and choices
  between branches of one static type.
* `Tree.HasTy t τ` — the typing of these trees by the table of results; a tree can have several types, as
  its branches can.
* `Scope.Typed` — parameters are bound to values of their types.
* `Tree.isMisjudged` — a conjunction or disjunction of integers, and a string added on the right of
  something else: the nodes where the static type follows another rule than the result.

Principal results: `evaluate_hasTy` — the typing is sound for evaluation; `Tree.HasTy.eq_ty_iff` — the two
tables differ at the misjudged nodes and at no others; `evaluate_ty` — a value is of the static type unless
a node is misjudged, and is not at the lowest misjudged node.
-/

namespace DualForm

/-- The types of booleans, integers and strings. -/
def Ty.isElementary : Ty → Bool
  | .bool | .int | .str => true
  | _ => false

/-- Type of the result of a built-in operator on operands of these types, if it supports them. -/
def BinaryOp.resultTy? (op : BinaryOp) (lhs rhs : Ty) : Option Ty :=
  match op with
  | .equal | .notEqual => some .bool
  | .add =>
      if lhs = .str ∨ rhs = .str then some .str
      else if lhs = .int ∧ rhs = .int then some .int else none
  | .sub | .mul | .div | .rem => if lhs = .int ∧ rhs = .int then some .int else none
  | .less | .lessEqual | .greater | .greaterEqual =>
      if lhs = rhs ∧ (lhs = .int ∨ lhs = .str) then some .bool else none
  | .andAlso | .orElse => if lhs = .bool ∧ rhs = .bool then some .bool else none
  | .and | .or => if lhs = rhs ∧ (lhs = .bool ∨ lhs = .int) then some lhs else none

/-- Parameters are bound to values of their types. -/
def Scope.Typed (scope : Scope) : Prop := ∀ p v, scope.lookup? p = some v → Value.ty v = p.ty

theorem Scope.typed_nil : Scope.Typed [] := fun _ _ h => by cases h

theorem Scope.Typed.bind {scope : Scope} (h : scope.Typed) {p : Param} {v : Value} (hv : Value.ty v = p.ty) :
    (scope.bind p v).Typed := by
  intro q w hq
  unfold Scope.bind Scope.lookup? at hq
  rw [List.find?_cons] at hq
  split at hq
  · next hp =>
    cases hq
    rw [← of_decide_eq_true hp]
    exact hv
  · exact h q w hq

namespace Tree

/-- Built-in operators over constants and parameters of elementary types, with choices between branches of
one static type. -/
inductive Elementary : Expr → Prop where
  | constant (v : Value) (hv : (Value.ty v).isElementary = true) : Elementary (.constant v)
  | param (p : Param) (hp : p.ty.isElementary = true) : Elementary (.param p)
  | operation (op : BinaryOp) {lhs rhs : Expr} (hl : Elementary lhs) (hr : Elementary rhs) :
      Elementary (.operation op lhs rhs)
  | complement {operand : Expr} (h : Elementary operand) : Elementary operand.complement
  | negation {operand : Expr} (h : Elementary operand) : Elementary operand.negation
  | conditional {test ifTrue ifFalse : Expr} (ht : Elementary test) (hp : Elementary ifTrue)
      (hn : Elementary ifFalse) (hty : ifTrue.ty = ifFalse.ty) :
      Elementary (.conditional test ifTrue ifFalse)

@[simp] theorem children_operation (op : BinaryOp) (lhs rhs : Expr) :
    (operation op lhs rhs).children = [lhs, rhs] := rfl

@[simp] theorem children_conditional (test ifTrue ifFalse : Expr) :
    (conditional test ifTrue ifFalse).children = [test, ifTrue, ifFalse] := rfl

theorem Elementary.child {t c : Expr} (ht : t.Elementary) (hc : c ∈ t.children) : c.Elementary := by
  cases ht with
  | constant | param => cases hc
  | @operation op lhs rhs hl hr =>
      obtain rfl | rfl : c = lhs ∨ c = rhs := by simpa using hc
      · exact hl
      · exact hr
  | complement h | negation h => exact List.forall_mem_singleton.2 h _ hc
  | @conditional test ifTrue ifFalse htest hp hn _ =>
      obtain rfl | rfl | rfl : c = test ∨ c = ifTrue ∨ c = ifFalse := by simpa using hc
      · exact htest
      · exact hp
      · exact hn

/-- The types a value of the tree can have. -/
inductive HasTy : Expr → Ty → Prop where
  | constant (v : Value) : HasTy (.constant v) (Value.ty v)
  | param (p : Param) : HasTy (.param p) p.ty
  /-- Short-circuiting operators may not look at their right operand. -/
  | shortCircuit {op : BinaryOp} {lhs : Expr} (rhs : Expr) (hop : op = .andAlso ∨ op = .orElse)
      (hl : HasTy lhs .bool) : HasTy (.operation op lhs rhs) .bool
  | strict {op : BinaryOp} {lhs rhs : Expr} {σ τ υ : Ty} (hand : op ≠ .andAlso) (hor : op ≠ .orElse)
      (hl : HasTy lhs σ) (hr : HasTy rhs τ) (h : op.resultTy? σ τ = some υ) :
      HasTy (.operation op lhs rhs) υ
  | complement {operand : Expr} (h : HasTy operand .bool) : HasTy operand.complement .bool
  | negation {operand : Expr} (h : HasTy operand .int) : HasTy operand.negation .int
  | ifTrue {test ifTrue : Expr} {τ : Ty} (ifFalse : Expr) (h : HasTy ifTrue τ) :
      HasTy (.conditional test ifTrue ifFalse) τ
  | ifFalse {test ifFalse : Expr} {τ : Ty} (ifTrue : Expr) (h : HasTy ifFalse τ) :
      HasTy (.conditional test ifTrue ifFalse) τ

/-- A conjunction or disjunction of integers, or a string added on the right of something else. -/
def isMisjudged : Expr → Bool
  | .binary .and lhs _ none | .binary .or lhs _ none => lhs.ty = .int
  | .binary .add lhs rhs none => rhs.ty = .str && lhs.ty ≠ .str
  | _ => false

end Tree

/-! ## Results of operators -/

namespace Value

/-- The numbers of elementary types are the integers. -/
theorem elementary_float {v : Value} {x : Float} (h : (ty v).isElementary = true) (hx : v.float? = some x) :
    ∃ n, v = .int n := by
  cases v with
  | int n => exact ⟨n, rfl⟩
  | float x => cases h
  | _ => cases hx

theorem booleanOperation_ty {op : BinaryOp} {a b : Bool} {v : Value}
    (h : booleanOperation op a b = some v) : op.resultTy? .bool .bool = some (ty v) := by
  cases op <;> cases h <;> rfl

theorem integerOperation_ty {op : BinaryOp} {a b : Int64} {v : Value}
    (h : integerOperation op a b = some v) : op.resultTy? .int .int = some (ty v) := by
  unfold integerOperation at h
  split at h <;> first | (split at h <;> cases h <;> rfl) | (cases h <;> rfl)

theorem stringOperation_ty {op : BinaryOp} {a b : String} {v : Value}
    (h : stringOperation op a b = some v) : op.resultTy? .str .str = some (ty v) := by
  cases op <;> cases h <;> rfl

/-- The type of what an operator computes. -/
theorem applyBinary_ty {op : BinaryOp} {lhs rhs v : Value} (hl : (ty lhs).isElementary = true)
    (hr : (ty rhs).isElementary = true) (h : applyBinary op lhs rhs = .ok v) :
    op.resultTy? (ty lhs) (ty rhs) = some (ty v) := by
  have hresult : binaryResult? op lhs rhs = some v := by
    unfold applyBinary at h
    split at h
    · next w hw => cases h; exact hw
    · cases h
  unfold binaryResult? at hresult
  split at hresult
  · next heq => cases hresult; subst heq; rfl
  split at hresult
  · next heq => cases hresult; subst heq; rfl
  split at hresult
  · exact booleanOperation_ty hresult
  · exact integerOperation_ty hresult
  · exact stringOperation_ty hresult
  · split at hresult
    · next hop => cases hresult; subst hop; simp [BinaryOp.resultTy?, ty]
    · cases hresult
  · split at hresult
    · next hop => cases hresult; subst hop; simp [BinaryOp.resultTy?, ty]
    · cases hresult
  · next hint _ =>
    -- floats are not of elementary types, and integers have been dealt with
    split at hresult
    · next ha hb =>
      obtain ⟨m, rfl⟩ := elementary_float hl ha
      obtain ⟨n, rfl⟩ := elementary_float hr hb
      exact (hint m n rfl rfl).elim
    · cases hresult

theorem applyUnary_not {v w : Value} {target : Ty} (h : applyUnary .not v target = .ok w) :
    ty v = .bool ∧ ty w = .bool := by
  cases v <;> cases h
  exact ⟨rfl, rfl⟩

/-- The only elementary values with a negation are integers. -/
theorem applyUnary_negate {v w : Value} {target : Ty} (hv : (ty v).isElementary = true)
    (h : applyUnary .negate v target = .ok w) : ty v = .int ∧ ty w = .int := by
  cases v with
  | int n => cases h; exact ⟨rfl, rfl⟩
  | float x => cases hv
  | _ => cases h

theorem expectBool_eq_ok {context : String} {v : Value} {b : Bool} (h : expectBool context v = .ok b) :
    v = .bool b := by
  cases v <;> cases h
  rfl

end Value

/-! ## Soundness of the typing -/

theorem BinaryOp.resultTy?_elementary {op : BinaryOp} {σ τ υ : Ty} (h : op.resultTy? σ τ = some υ) :
    υ.isElementary = true := by
  unfold resultTy? at h
  grind [Ty.isElementary]

variable {E : Engine} {scope : Scope}

/-- Where a boolean is needed to go on, an action that returns has got one. -/
theorem expectBool_returns {context : String} {x : Act Value} {k : Bool → Act Value} {v : Value} {s u : Store}
    (hk : ∀ b t, k b t = .ok v u → ∃ c, v = .bool c)
    (h : (do k (← Act.lift (Value.expectBool context (← x)))) s = .ok v u) :
    (∃ b t, x s = .ok (.bool b) t) ∧ ∃ c, v = .bool c := by
  obtain ⟨w, t, hw, h⟩ := Act.bind_eq_ok.1 h
  obtain ⟨b, t', hb, h⟩ := Act.bind_eq_ok.1 h
  rw [Value.expectBool_eq_ok (Act.lift_eq_ok.1 hb).1] at hw
  exact ⟨⟨b, t, hw⟩, hk b t' h⟩

/-- A short-circuiting operator that returns has had a boolean on its left, and returns a boolean. -/
theorem evaluate_shortCircuit {op : BinaryOp} (hop : op = .andAlso ∨ op = .orElse) {lhs rhs : Expr} {v : Value}
    {s u : Store} (h : evaluate E scope (.operation op lhs rhs) s = .ok v u) :
    (∃ b t, evaluate E scope lhs s = .ok (.bool b) t) ∧ ∃ c, v = .bool c := by
  have hpure : ∀ {c t}, (pure (.bool c) : Act Value) t = .ok v u → ∃ c, v = .bool c := fun {c _} h =>
    ⟨c, (Act.pure_eq_ok.1 h).1.symm⟩
  have hrhs : ∀ {context t}, (do
      return Datum.bool (← Act.lift (Value.expectBool context (← evaluate E scope rhs))) : Act Value) t =
        .ok v u → ∃ c, v = .bool c := fun h =>
    (expectBool_returns (k := fun c => pure (.bool c)) (fun _ _ => hpure) h).2
  obtain rfl | rfl := hop
  · rw [Tree.operation, evaluate_andAlso] at h
    exact expectBool_returns (fun b t hb => by cases b with
      | true => exact hrhs hb
      | false => exact hpure hb) h
  · rw [Tree.operation, evaluate_orElse] at h
    exact expectBool_returns (fun b t hb => by cases b with
      | true => exact hpure hb
      | false => exact hrhs hb) h

/-- **Evaluation respects the typing: the type of a value is one of those its tree can have.** -/
theorem evaluate_hasTy {t : Expr} (ht : t.Elementary) (hscope : scope.Typed) {v : Value} {s u : Store}
    (h : evaluate E scope t s = .ok v u) : t.HasTy (Value.ty v) ∧ (Value.ty v).isElementary = true := by
  induction ht generalizing v s u with
  | constant w hw =>
      obtain ⟨rfl, -⟩ := Act.pure_eq_ok.1 h
      exact ⟨.constant w, hw⟩
  | param p hp =>
      cases hlook : scope.lookup? p with
      | none => rw [evaluate_unbound hlook] at h; cases h
      | some w =>
          rw [evaluate_bound hlook] at h
          obtain ⟨rfl, -⟩ := Act.pure_eq_ok.1 h
          rw [hscope p w hlook]
          exact ⟨.param p, hp⟩
  | @operation op lhs rhs hl hr ihl ihr =>
      by_cases hop : op = .andAlso ∨ op = .orElse
      · obtain ⟨⟨b, t, hb⟩, c, rfl⟩ := evaluate_shortCircuit hop h
        exact ⟨.shortCircuit rhs hop (ihl hb).1, rfl⟩
      · obtain ⟨hand, hor⟩ := not_or.1 hop
        rw [Tree.operation, evaluate_strict hand hor] at h
        obtain ⟨a, t, ha, h⟩ := Act.bind_eq_ok.1 h
        obtain ⟨b, t', hb, h⟩ := Act.bind_eq_ok.1 h
        have hty := Value.applyBinary_ty (ihl ha).2 (ihr hb).2 (Act.lift_eq_ok.1 h).1
        exact ⟨.strict hand hor (ihl ha).1 (ihr hb).1 hty, BinaryOp.resultTy?_elementary hty⟩
  | complement _ ih =>
      obtain ⟨w, t, hw, h⟩ := Act.bind_eq_ok.1 h
      obtain ⟨hwty, hvty⟩ := Value.applyUnary_not (Act.lift_eq_ok.1 h).1
      rw [hvty]
      exact ⟨.complement (hwty ▸ (ih hw).1), rfl⟩
  | negation _ ih =>
      obtain ⟨w, t, hw, h⟩ := Act.bind_eq_ok.1 h
      obtain ⟨hwty, hvty⟩ := Value.applyUnary_negate (ih hw).2 (Act.lift_eq_ok.1 h).1
      rw [hvty]
      exact ⟨.negation (hwty ▸ (ih hw).1), rfl⟩
  | @conditional test ifTrue ifFalse _ _ _ _ _ ihp ihn =>
      obtain ⟨w, t, _, h⟩ := Act.bind_eq_ok.1 h
      obtain ⟨b, t', _, h⟩ := Act.bind_eq_ok.1 h
      cases b with
      | true => exact ⟨.ifTrue ifFalse (ihp h).1, (ihp h).2⟩
      | false => exact ⟨.ifFalse ifTrue (ihn h).1, (ihn h).2⟩

/-! ## The static type -/

namespace Tree

/-- At one operator, the table of results and the static type differ exactly if the node is misjudged. -/
theorem resultTy?_eq_ty_iff {op : BinaryOp} {lhs rhs : Expr} {υ : Ty}
    (h : op.resultTy? lhs.ty rhs.ty = some υ) :
    υ = (operation op lhs rhs).ty ↔ (operation op lhs rhs).isMisjudged = false := by
  unfold BinaryOp.resultTy? at h
  cases op <;> simp only [operation, Tree.ty, isMisjudged, BinaryOp.isPredicate] <;>
    grind [arithmeticTy]

/-- Where the values of the direct subtrees are of their static types, those of the node are exactly if it is
not misjudged. -/
theorem HasTy.eq_ty_iff {t : Expr} {τ : Ty} (h : t.HasTy τ) (ht : t.Elementary)
    (hchildren : ∀ c ∈ t.children, ∀ σ, c.HasTy σ → σ = c.ty) : τ = t.ty ↔ t.isMisjudged = false := by
  cases h with
  | constant | param => exact iff_of_true rfl rfl
  | shortCircuit rhs hop hl => obtain rfl | rfl := hop <;> exact iff_of_true rfl rfl
  | strict hand hor hl hr hresult =>
      obtain rfl := hchildren _ (by simp) _ hl
      obtain rfl := hchildren _ (by simp) _ hr
      exact resultTy?_eq_ty_iff hresult
  | complement => exact iff_of_true rfl rfl
  | negation hx => exact iff_of_true (hchildren _ (List.mem_singleton.2 rfl) _ hx) rfl
  | ifTrue _ hp =>
      have hty := hchildren _ (by simp) _ hp
      exact iff_of_true hty rfl
  | ifFalse _ hn =>
      cases ht with
      | conditional _ _ _ hty =>
          rw [hchildren _ (by simp) _ hn]
          exact iff_of_true hty.symm rfl

/-- **Where no node is misjudged, every type a value can have is the static type.** -/
theorem HasTy.eq_ty {t : Expr} {τ : Ty} (h : t.HasTy τ) (ht : t.Elementary)
    (hnone : t.Everywhere fun u => u.isMisjudged = false) : τ = t.ty := by
  induction t using childwise generalizing τ with
  | step t ih =>
      refine (h.eq_ty_iff ht fun c hc σ hσ => ?_).2 hnone.here
      exact ih c hc hσ (ht.child hc) (hnone.child hc)

end Tree

/-- **The type of a value is one its tree can have; it is the static type if no node is misjudged, and it is
not where the tree itself is misjudged and nothing below it is.** -/
theorem evaluate_ty {t : Expr} (ht : t.Elementary) (hscope : scope.Typed) {v : Value} {s u : Store}
    (h : evaluate E scope t s = .ok v u) :
    t.HasTy (Value.ty v) ∧
      ((t.Everywhere fun u => u.isMisjudged = false) → Value.ty v = t.ty) ∧
      ((∀ c ∈ t.children, c.Everywhere fun u => u.isMisjudged = false) →
        t.isMisjudged = true → Value.ty v ≠ t.ty) := by
  have hty := (evaluate_hasTy ht hscope h).1
  refine ⟨hty, hty.eq_ty ht, fun hbelow hmis heq => ?_⟩
  have hnot := (hty.eq_ty_iff ht fun c hc σ hσ => hσ.eq_ty (ht.child hc) (hbelow c hc)).1 heq
  rw [hmis] at hnot
  cases hnot

namespace Masked

/-- An integer parameter. -/
def x : Param := ⟨0, "x", .int⟩

/-- `x > 2 ? x * 3 : -x`. -/
def choice : Expr :=
  .conditional (.operation .greater (.param x) (.constant (.int 2)))
    (.operation .mul (.param x) (.constant (.int 3))) (Tree.negation (.param x))

/-- `x & 3`. -/
def mask : Expr := .operation .and (.param x) (.constant (.int 3))

theorem choice_elementary : choice.Elementary :=
  .conditional (.operation _ (.param x rfl) (.constant _ rfl)) (.operation _ (.param x rfl) (.constant _ rfl))
    (.negation (.param x rfl)) rfl

theorem choice_judged : choice.Everywhere fun u => u.isMisjudged = false := by
  refine Tree.everywhere_iff.2 ⟨rfl, fun c hc => ?_⟩
  obtain rfl | rfl | rfl : c = .operation .greater (.param x) (.constant (.int 2)) ∨
      c = .operation .mul (.param x) (.constant (.int 3)) ∨ c = Tree.negation (.param x) := by
    simpa [choice] using hc
  · exact Tree.everywhere_pair rfl rfl (Tree.everywhere_leaf rfl rfl) (Tree.everywhere_leaf rfl rfl)
  · exact Tree.everywhere_pair rfl rfl (Tree.everywhere_leaf rfl rfl) (Tree.everywhere_leaf rfl rfl)
  · exact Tree.everywhere_single rfl rfl (Tree.everywhere_leaf rfl rfl)

theorem mask_operands : ∀ c ∈ mask.children, c.Everywhere fun u => u.isMisjudged = false := by
  intro c hc
  obtain rfl | rfl : c = .param x ∨ c = .constant (.int 3) := by simpa [mask] using hc
  · exact Tree.everywhere_leaf rfl rfl
  · exact Tree.everywhere_leaf rfl rfl

end Masked

open Masked in
/-- A choice between a product and a negation is of its static type, a conjunction of bits is not. -/
theorem evaluate_ty_masked :
    (∃ v, evaluate .exhausted (Scope.bind [] x (.int 5)) choice .initial = .ok v .initial ∧
      Value.ty v = choice.ty) ∧
    ∃ v, evaluate .exhausted (Scope.bind [] x (.int 6)) mask .initial = .ok v .initial ∧
      Value.ty v ≠ mask.ty := by
  have hchoice : evaluate .exhausted (Scope.bind [] x (.int 5)) choice .initial =
      .ok (.int 15) .initial := rfl
  have hmask : evaluate .exhausted (Scope.bind [] x (.int 6)) mask .initial = .ok (.int 2) .initial := rfl
  refine ⟨⟨_, hchoice, ?_⟩, ⟨_, hmask, ?_⟩⟩
  · exact (evaluate_ty choice_elementary (Scope.typed_nil.bind rfl) hchoice).2.1 choice_judged
  · exact (evaluate_ty (.operation _ (.param x rfl) (.constant _ rfl)) (Scope.typed_nil.bind rfl) hmask).2.2
      mask_operands rfl

end DualForm
