import DualForm.Proofs.Dual.Simulation

/-!
# Other numbers for identities

Functions, duals, factories, records and parameters are told apart by the number they were given when they were
made. Here these numbers are replaced throughout a value or a tree.

* `Value.relabel`, `Tree.relabel` and their companions — the same object with other numbers for all identities in
  it.

Principal results: what shows of a value does not change (`Value.text_relabel`, `Value.ty_relabel`), and as long as
different numbers stay different, neither does what is computed from values (`Value.same_relabel`,
`Value.applyBinary_relabel`, `Scope.lookup?_relabel`).
-/

namespace DualForm

/-! ## Relabelling -/

/-- The parameter under another number. -/
def Param.relabel (ρ : Nat → Nat) (p : Param) : Param := { p with id := ρ p.id }

mutual

/-- The function with other numbers for all identities in it. -/
def Func.relabel (ρ : Nat → Nat) : Func → Func
  | ⟨id, arity, code⟩ => ⟨ρ id, arity, Code.relabel ρ code⟩

/-- Code with other numbers. -/
def Code.relabel (ρ : Nat → Nat) : Code → Code
  | .closure l scope => .closure (Lambda.relabel ρ l) (Scope.relabel ρ scope)
  | .host routine held => .host routine (Value.relabelAll ρ held)
  | .chain inner outer => .chain (Func.relabel ρ inner) (Func.relabel ρ outer)
  | .conjunction lhs rhs => .conjunction (Func.relabel ρ lhs) (Func.relabel ρ rhs)
  | .disjunction lhs rhs => .disjunction (Func.relabel ρ lhs) (Func.relabel ρ rhs)
  | .negation predicate => .negation (Func.relabel ρ predicate)
  | .rebuilt builders bindings => .rebuilt builders (Bindings.relabel ρ bindings)

/-- A getter with other numbers. -/
def Getter.relabel (ρ : Nat → Nat) : Getter → Getter
  | .field => .field
  | .property f => .property (Func.relabel ρ f)
  | .fixed v => .fixed (Value.relabel ρ v)
  | .computed f => .computed (Func.relabel ρ f)
  | .evaluator kind => .evaluator kind

/-- An invoker with other numbers. -/
def Invoker.relabel (ρ : Nat → Nat) : Invoker → Invoker
  | .function f => .function (Func.relabel ρ f)
  | .method f => .method (Func.relabel ρ f)
  | .evaluate kind => .evaluate kind
  | .toFunction kind => .toFunction kind
  | .conjunction => .conjunction
  | .disjunction => .disjunction
  | .negation => .negation
  | .bind => .bind

/-- The dual with other numbers. -/
def Dual.relabel (ρ : Nat → Nat) : Dual → Dual
  | ⟨id, kind, source, result, origin⟩ => ⟨ρ id, kind, source, result, Origin.relabel ρ origin⟩

/-- How a dual was made, with other numbers. -/
def Origin.relabel (ρ : Nat → Nat) : Origin → Origin
  | .lambda raw => .lambda (Lambda.relabel ρ raw)
  | .compiled c => .compiled (Compiled.relabel ρ c)
  | .bound builders bindings => .bound builders (Bindings.relabel ρ bindings)
  | .hosted build func rewritten => .hosted build func rewritten
  | .composed outer inner => .composed (Dual.relabel ρ outer) (Dual.relabel ρ inner)
  | .precomposed outer inner => .precomposed (Dual.relabel ρ outer) (Compiled.relabel ρ inner)
  | .postcomposed inner outer => .postcomposed (Dual.relabel ρ inner) (Compiled.relabel ρ outer)
  | .conjunction lhs rhs => .conjunction (Dual.relabel ρ lhs) (Dual.relabel ρ rhs)
  | .disjunction lhs rhs => .disjunction (Dual.relabel ρ lhs) (Dual.relabel ρ rhs)
  | .negation predicate => .negation (Dual.relabel ρ predicate)

/-- A function and its tree with other numbers. -/
def Compiled.relabel (ρ : Nat → Nat) : Compiled → Compiled
  | ⟨func, expression, decompiler⟩ => ⟨Func.relabel ρ func, Lambda.relabel? ρ expression, decompiler⟩

/-- An argument with other numbers. -/
def Argument.relabel (ρ : Nat → Nat) : Argument → Argument
  | .value v => .value (Value.relabel ρ v)
  | .deferred accessor => .deferred (Compiled.relabel ρ accessor)

/-- The factory with other numbers. -/
def Factory.relabel (ρ : Nat → Nat) : Factory → Factory
  | ⟨id, kind, builders, bound, next, second, source, result⟩ =>
      ⟨ρ id, kind, builders, Bindings.relabel ρ bound, next, second, source, result⟩

/-- **The value with other numbers for all identities in it.** -/
def Value.relabel (ρ : Nat → Nat) : Value → Value
  | .null => .null
  | .bool b => .bool b
  | .int n => .int n
  | .float x => .float x
  | .str s => .str s
  | .list items => .list (Value.relabelAll ρ items)
  | .record id declaring fields => .record (ρ id) declaring (Value.relabelFields ρ fields)
  | .func f => .func (Func.relabel ρ f)
  | .dual d => .dual (Dual.relabel ρ d)
  | .factory k => .factory (Factory.relabel ρ k)

/-- The values of a list with other numbers. -/
def Value.relabelAll (ρ : Nat → Nat) : List Value → List Value
  | [] => []
  | v :: vs => Value.relabel ρ v :: Value.relabelAll ρ vs

/-- The fields of a record with other numbers. -/
def Value.relabelFields (ρ : Nat → Nat) : List (String × Value) → List (String × Value)
  | [] => []
  | field :: fields => Value.relabelField ρ field :: Value.relabelFields ρ fields

def Value.relabelField (ρ : Nat → Nat) : String × Value → String × Value
  | (name, v) => (name, Value.relabel ρ v)

/-- A scope with other numbers. -/
def Scope.relabel (ρ : Nat → Nat) : List (Param × Value) → List (Param × Value)
  | [] => []
  | binding :: scope => Scope.relabelBinding ρ binding :: Scope.relabel ρ scope

def Scope.relabelBinding (ρ : Nat → Nat) : Param × Value → Param × Value
  | (p, v) => (p.relabel ρ, Value.relabel ρ v)

/-- Arguments of a factory with other numbers. -/
def Bindings.relabel (ρ : Nat → Nat) : List (FormalParam × Argument) → List (FormalParam × Argument)
  | [] => []
  | binding :: bindings => Bindings.relabelBinding ρ binding :: Bindings.relabel ρ bindings

def Bindings.relabelBinding (ρ : Nat → Nat) : FormalParam × Argument → FormalParam × Argument
  | (formal, arg) => (formal, Argument.relabel ρ arg)

def Lambda.relabel? (ρ : Nat → Nat) : Option Lam → Option Lam
  | none => none
  | some l => some (Lambda.relabel ρ l)

/-- A lambda with other numbers. -/
def Lambda.relabel (ρ : Nat → Nat) : Lam → Lam
  | ⟨params, body⟩ => ⟨params.map (Param.relabel ρ), Tree.relabel ρ body⟩

/-- A member with other numbers. -/
def Member.relabel (ρ : Nat → Nat) : Member Getter → Member Getter
  | ⟨signature, getter⟩ => ⟨signature, Getter.relabel ρ getter⟩

/-- A method with other numbers. -/
def Method.relabel (ρ : Nat → Nat) : Method Invoker → Method Invoker
  | ⟨signature, invoker⟩ => ⟨signature, Invoker.relabel ρ invoker⟩

def Method.relabel? (ρ : Nat → Nat) : Option (Method Invoker) → Option (Method Invoker)
  | none => none
  | some m => some (Method.relabel ρ m)

/-- **The tree with other numbers for all identities and parameters in it.** -/
def Tree.relabel (ρ : Nat → Nat) : Expr → Expr
  | .literal v ty => .literal (Value.relabel ρ v) ty
  | .param p => .param (p.relabel ρ)
  | .staticMember m => .staticMember (Member.relabel ρ m)
  | .member target m => .member (Tree.relabel ρ target) (Member.relabel ρ m)
  | .staticCall m args => .staticCall (Method.relabel ρ m) (Tree.relabelAll ρ args)
  | .call target m args => .call (Tree.relabel ρ target) (Method.relabel ρ m) (Tree.relabelAll ρ args)
  | .binary op lhs rhs via => .binary op (Tree.relabel ρ lhs) (Tree.relabel ρ rhs) (Method.relabel? ρ via)
  | .unary op operand via ty => .unary op (Tree.relabel ρ operand) (Method.relabel? ρ via) ty
  | .lambda params body => .lambda (params.map (Param.relabel ρ)) (Tree.relabel ρ body)
  | .invoke callee args => .invoke (Tree.relabel ρ callee) (Tree.relabelAll ρ args)
  | .conditional test ifTrue ifFalse =>
      .conditional (Tree.relabel ρ test) (Tree.relabel ρ ifTrue) (Tree.relabel ρ ifFalse)

/-- The trees of a list with other numbers. -/
def Tree.relabelAll (ρ : Nat → Nat) : List Expr → List Expr
  | [] => []
  | t :: ts => Tree.relabel ρ t :: Tree.relabelAll ρ ts

end

variable {ρ : Nat → Nat}

/-! ## Parts -/

@[simp] theorem Value.relabelAll_eq_map (vs : List Value) :
    Value.relabelAll ρ vs = vs.map (Value.relabel ρ) := by
  induction vs with
  | nil => rfl
  | cons v vs ih => rw [Value.relabelAll, ih, List.map_cons]

@[simp] theorem Value.relabelFields_eq_map (fields : List (String × Value)) :
    Value.relabelFields ρ fields = fields.map (Value.relabelField ρ) := by
  induction fields with
  | nil => rfl
  | cons field fields ih => rw [Value.relabelFields, ih, List.map_cons]

@[simp] theorem Scope.relabel_eq_map (scope : Scope) :
    Scope.relabel ρ scope = scope.map (Scope.relabelBinding ρ) := by
  induction scope with
  | nil => rfl
  | cons binding scope ih => rw [Scope.relabel, ih, List.map_cons]

@[simp] theorem Bindings.relabel_eq_map (bs : Bindings) :
    Bindings.relabel ρ bs = bs.map (Bindings.relabelBinding ρ) := by
  induction bs with
  | nil => rfl
  | cons b bs ih => rw [Bindings.relabel, ih, List.map_cons]

@[simp] theorem Tree.relabelAll_eq_map (ts : List Expr) :
    Tree.relabelAll ρ ts = ts.map (Tree.relabel ρ) := by
  induction ts with
  | nil => rfl
  | cons t ts ih => rw [Tree.relabelAll, ih, List.map_cons]

@[simp] theorem Lambda.relabel?_eq_map (l : Option Lam) :
    Lambda.relabel? ρ l = l.map (Lambda.relabel ρ) := by
  cases l with
  | none => rfl
  | some l => rw [Lambda.relabel?, Option.map_some]

@[simp] theorem Method.relabel?_eq_map (m : Option (Method Invoker)) :
    Method.relabel? ρ m = m.map (Method.relabel ρ) := by
  cases m with
  | none => rfl
  | some m => rw [Method.relabel?, Option.map_some]

namespace Func

@[simp] theorem relabel_id (f : Func) : (f.relabel ρ).id = ρ f.id := by cases f; rfl
@[simp] theorem relabel_arity (f : Func) : (f.relabel ρ).arity = f.arity := by cases f; rfl
@[simp] theorem relabel_code (f : Func) : (f.relabel ρ).code = f.code.relabel ρ := by cases f; rfl

end Func

namespace Dual

@[simp] theorem relabel_id (d : Dual) : (d.relabel ρ).id = ρ d.id := by cases d; rfl
@[simp] theorem relabel_kind (d : Dual) : (d.relabel ρ).kind = d.kind := by cases d; rfl
@[simp] theorem relabel_source (d : Dual) : (d.relabel ρ).source = d.source := by cases d; rfl
@[simp] theorem relabel_origin (d : Dual) : (d.relabel ρ).origin = d.origin.relabel ρ := by cases d; rfl
@[simp] theorem relabel_signature (d : Dual) : (d.relabel ρ).signature = d.signature := by cases d; rfl

end Dual

namespace Factory

@[simp] theorem relabel_id (k : Factory) : (k.relabel ρ).id = ρ k.id := by cases k; rfl
@[simp] theorem relabel_bound (k : Factory) :
    (k.relabel ρ).bound = k.bound.map (Bindings.relabelBinding ρ) := by
  cases k; rw [Factory.relabel, Bindings.relabel_eq_map]
@[simp] theorem relabel_next (k : Factory) : (k.relabel ρ).next = k.next := by cases k; rfl
@[simp] theorem relabel_second (k : Factory) : (k.relabel ρ).second = k.second := by cases k; rfl
@[simp] theorem relabel_arity (k : Factory) : (k.relabel ρ).arity = k.arity := by cases k; rfl
@[simp] theorem relabel_signature (k : Factory) : (k.relabel ρ).signature = k.signature := by
  cases k; rfl

end Factory

namespace Compiled

@[simp] theorem relabel_func (c : Compiled) : (c.relabel ρ).func = c.func.relabel ρ := by cases c; rfl
@[simp] theorem relabel_decompiler (c : Compiled) : (c.relabel ρ).decompiler = c.decompiler := by
  cases c; rfl
@[simp] theorem relabel_expression (c : Compiled) :
    (c.relabel ρ).expression = c.expression.map (Lambda.relabel ρ) := by
  cases c; rw [Compiled.relabel, Lambda.relabel?_eq_map]

end Compiled

namespace Member

@[simp] theorem relabel_signature (m : Member Getter) :
    (m.relabel ρ).toMemberSignature = m.toMemberSignature := by cases m; rfl

end Member

namespace Method

@[simp] theorem relabel_signature (m : Method Invoker) :
    (m.relabel ρ).toMethodSignature = m.toMethodSignature := by cases m; rfl
@[simp] theorem relabel_invoker (m : Method Invoker) :
    (m.relabel ρ).invoker = m.invoker.relabel ρ := by cases m; rfl

end Method

namespace Lambda

@[simp] theorem relabel_params (l : Lam) : (l.relabel ρ).params = l.params.map (Param.relabel ρ) := by
  cases l; rfl
@[simp] theorem relabel_body (l : Lam) : (l.relabel ρ).body = l.body.relabel ρ := by cases l; rfl
@[simp] theorem relabel_arity (l : Lam) : (l.relabel ρ).arity = l.arity := by
  simp [Lambda.arity]
@[simp] theorem relabel_tree (l : Lam) : (l.relabel ρ).tree = l.tree.relabel ρ := by cases l; rfl

end Lambda

/-! ## What shows of a value -/

namespace Value

@[simp] theorem ty_relabel (v : Value) : Value.ty (v.relabel ρ) = Value.ty v := by
  induction v using Value.ty.induct with
  | case7 item items ih => simpa [Value.relabel, Value.ty] using ih
  | _ => simp [Value.relabel, Value.ty]

mutual

@[simp] theorem text_relabel : ∀ v : Value, (v.relabel ρ).text = v.text
  | .null | .bool _ | .int _ | .float _ | .str _ => rfl
  | .list items => by
      rw [Value.relabel, Value.text, Value.text, Value.relabelAll_eq_map, texts_relabel items]
  | .record _ _ _ => rfl
  | .func f => by rw [Value.relabel, Value.text, Value.text, Func.relabel_arity]
  | .dual d => by rw [Value.relabel, Value.text, Value.text, Dual.relabel_signature]
  | .factory k => by rw [Value.relabel, Value.text, Value.text, Factory.relabel_signature]

@[simp] theorem texts_relabel : ∀ vs : List Value, Value.texts (vs.map (Value.relabel ρ)) = Value.texts vs
  | [] => rfl
  | v :: vs => by
      rw [List.map_cons, Value.texts, Value.texts, text_relabel v, texts_relabel vs]

end

@[simp] theorem plain_relabel (v : Value) : Value.plain (v.relabel ρ) = Value.plain v := by
  cases v with
  | str s => rfl
  | _ => exact text_relabel _

mutual

/-- Different numbers stay different, so the same values are equal. -/
theorem same_relabel (hρ : Function.Injective ρ) :
    ∀ v w : Value, Value.same (v.relabel ρ) (w.relabel ρ) = Value.same v w
  | .null, w | .bool _, w | .int _, w | .float _, w | .str _, w => by cases w <;> rfl
  | .list as, w => by
      cases w with
      | list bs =>
          rw [Value.relabel, Value.relabel, Value.same, Value.same, Value.relabelAll_eq_map,
            Value.relabelAll_eq_map, sameAll_relabel hρ as bs]
      | _ => rfl
  | .record id _ _, w => by cases w <;> simp [Value.relabel, Value.same, hρ.eq_iff]
  | .func f, w => by cases w <;> simp [Value.relabel, Value.same, hρ.eq_iff]
  | .dual d, w => by cases w <;> simp [Value.relabel, Value.same, hρ.eq_iff]
  | .factory k, w => by cases w <;> simp [Value.relabel, Value.same, hρ.eq_iff]

theorem sameAll_relabel (hρ : Function.Injective ρ) : ∀ vs ws : List Value,
    Value.sameAll (vs.map (Value.relabel ρ)) (ws.map (Value.relabel ρ)) = Value.sameAll vs ws
  | [], ws => by cases ws <;> rfl
  | v :: vs, ws => by
      cases ws with
      | nil => rfl
      | cons w ws =>
          rw [List.map_cons, List.map_cons, Value.sameAll, Value.sameAll, same_relabel hρ v w,
            sameAll_relabel hρ vs ws]

end

@[simp] theorem isNull_relabel (v : Value) : (v.relabel ρ).isNull = v.isNull := by cases v <;> rfl

@[simp] theorem dual?_relabel (kind : DualKind) (v : Value) :
    Value.dual? kind (v.relabel ρ) = (Value.dual? kind v).map (Dual.relabel ρ) := by
  cases v with
  | dual d => by_cases h : d.kind = kind <;> simp [Value.relabel, Value.dual?, h]
  | _ => rfl

@[simp] theorem factory?_relabel (v : Value) :
    Value.factory? (v.relabel ρ) = (Value.factory? v).map (Factory.relabel ρ) := by
  cases v <;> rfl

/-! ## What is computed from values -/

/-- Numbers, strings and booleans hold no identities. -/
theorem relabel_scalar {v : Value} (h : v.isScalar = true) : v.relabel ρ = v := by
  cases v <;> first | rfl | cases h

theorem binaryResult?_relabel (hρ : Function.Injective ρ) (op : BinaryOp) (v w : Value) :
    Value.binaryResult? op (v.relabel ρ) (w.relabel ρ) = Value.binaryResult? op v w := by
  have hv := @plain_relabel ρ v
  have hw := @plain_relabel ρ w
  unfold Value.binaryResult?
  rw [same_relabel hρ]
  cases v <;> cases w <;> first
    | rfl
    | simp only [Value.relabel] at hw ⊢; rw [hw]
    | simp only [Value.relabel] at hv ⊢; rw [hv]

theorem applyBinary_relabel (hρ : Function.Injective ρ) (op : BinaryOp) (v w : Value) :
    Value.applyBinary op (v.relabel ρ) (w.relabel ρ) =
      (Value.applyBinary op v w).map (Value.relabel ρ) := by
  unfold Value.applyBinary
  rw [binaryResult?_relabel hρ]
  cases h : Value.binaryResult? op v w with
  | some c => rw [Except.map, relabel_scalar (binaryResult_scalar h)]
  | none => simp [Except.map, Value.unsupportedOperands, Value.texts]

theorem convertValue_relabel (v : Value) (ty : Ty) :
    Value.convertValue (v.relabel ρ) ty = (Value.convertValue v ty).map (Value.relabel ρ) := by
  have hty := @ty_relabel ρ v
  have hchecked : (if ty.accepts (Value.ty (v.relabel ρ)) then .ok (v.relabel ρ)
      else .error (.typeMismatch ty.text (Value.ty (v.relabel ρ)).text) : Except Error Value) =
      (if ty.accepts (Value.ty v) then .ok v
        else .error (.typeMismatch ty.text (Value.ty v).text) : Except Error Value).map (Value.relabel ρ) := by
    rw [hty]
    split <;> rfl
  cases v with
  | null => rfl
  | bool | str | list | record | func | dual | factory => exact hchecked
  | int n => cases ty <;> rfl
  | float x => cases ty <;> rfl

theorem applyUnary_relabel (op : UnaryOp) (v : Value) (ty : Ty) :
    Value.applyUnary op (v.relabel ρ) ty = (Value.applyUnary op v ty).map (Value.relabel ρ) := by
  have hunsupported : (.error (Value.unsupportedOperands op.symbol [v.relabel ρ]) : Except Error Value) =
      (.error (Value.unsupportedOperands op.symbol [v]) : Except Error Value).map (Value.relabel ρ) := by
    simp [Except.map, Value.unsupportedOperands, Value.texts]
  cases op with
  | convert => exact convertValue_relabel v ty
  | not | negate => cases v <;> first | rfl | exact hunsupported

theorem expectBool_relabel (context : String) (v : Value) :
    Value.expectBool context (v.relabel ρ) = Value.expectBool context v := by
  have hrefused : (.error (.typeMismatch ("bool (" ++ context ++ ")") (Value.ty (v.relabel ρ)).text) :
      Except Error Bool) = .error (.typeMismatch ("bool (" ++ context ++ ")") (Value.ty v).text) := by
    rw [ty_relabel]
  cases v with
  | bool b => rfl
  | _ => exact hrefused

end Value

@[simp] theorem Dual.expect_relabel (kind : DualKind) (v : Value) :
    Dual.expect kind (v.relabel ρ) = (Dual.expect kind v).map (Dual.relabel ρ) := by
  unfold Dual.expect
  rw [Value.dual?_relabel, Value.ty_relabel]
  cases Value.dual? kind v <;> rfl

theorem Argument.ofRuntime_relabel (v : Value) (ty : Ty) :
    Argument.ofRuntime (v.relabel ρ) ty = (Argument.ofRuntime v ty).relabel ρ := by
  cases v with
  | func f =>
      show (if _ then _ else _) = Argument.relabel ρ (if _ then _ else _)
      rw [Func.relabel_arity]
      split <;> rfl
  | _ => rfl

@[simp] theorem Argument.isDeferred_relabel (a : Argument) : (a.relabel ρ).isDeferred = a.isDeferred := by
  cases a <;> rfl

/-- Different parameters stay different. -/
theorem Param.relabel_injective (hρ : Function.Injective ρ) : Function.Injective (Param.relabel ρ) := by
  rintro ⟨i, name, ty⟩ ⟨j, name', ty'⟩ h
  simp only [Param.relabel, Param.mk.injEq, hρ.eq_iff] at h ⊢
  exact h

/-- A parameter is bound to the same value. -/
theorem Scope.lookup?_relabel (hρ : Function.Injective ρ) (scope : Scope) (p : Param) :
    Scope.lookup? (Scope.relabel ρ scope) (p.relabel ρ) = (scope.lookup? p).map (Value.relabel ρ) := by
  rw [Scope.relabel_eq_map]
  unfold Scope.lookup?
  induction scope with
  | nil => rfl
  | cons binding scope ih =>
      obtain ⟨q, v⟩ := binding
      by_cases h : q = p
      · simp [Scope.relabelBinding, h]
      · simpa [Scope.relabelBinding, h, (Param.relabel_injective hρ).eq_iff] using ih

theorem Scope.bindAll_relabel (scope : Scope) (params : List Param) (args : List Value) :
    Scope.relabel ρ (scope.bindAll params args) =
      Scope.bindAll (Scope.relabel ρ scope) (params.map (Param.relabel ρ)) (args.map (Value.relabel ρ)) := by
  have hzip : (params.zip args).map (Scope.relabelBinding ρ) =
      (params.map (Param.relabel ρ)).zip (args.map (Value.relabel ρ)) := by
    rw [List.zip_map]
    refine List.map_congr_left ?_
    rintro ⟨p, v⟩ -
    rfl
  simp [Scope.bindAll, List.map_append, List.map_reverse, hzip]

theorem Datum.fieldOf?_relabel (fields : List (String × Value)) (name : String) :
    Datum.fieldOf? (Value.relabelFields ρ fields) name =
      (Datum.fieldOf? fields name).map (Value.relabel ρ) := by
  rw [Value.relabelFields_eq_map]
  unfold Datum.fieldOf?
  induction fields with
  | nil => rfl
  | cons field fields ih =>
      obtain ⟨other, v⟩ := field
      by_cases h : other = name
      · simp [Value.relabelField, h]
      · simpa [Value.relabelField, h] using ih

end DualForm
