import DualForm.Factory.Basic

/-!
# Evaluation

* `Member.read` — reads a field or property. Static members take no target, the others need one.
* `Method.invoke` — runs a method on an evaluated target and arguments.
* `evaluate` — the value of a tree in a scope. Operands and arguments are evaluated left to right,
  the target of a call first; `&&`, `||` and conditionals evaluate only what they need; a lambda
  becomes a function that keeps the scope.
-/

namespace DualForm

/-- Reads a member of a value. -/
def Member.read (E : Engine) (m : Member Getter) (target : Option Value) : Act Value :=
  match m.isStatic, target with
  | true, some v => Act.fail (.memberAccess m.name v.text)
  | false, none => Act.fail (.memberAccess m.name "<static>")
  | _, target =>
      match m.getter, target with
      | .field, some (.record _ declaring fields) =>
          match Datum.fieldOf? fields m.name with
          | some v => pure v
          | none => Act.fail (.memberAccess m.name declaring.name)
      | .field, some v => Act.fail (.memberAccess m.name v.text)
      | .field, none => Act.fail (.memberAccess m.name "")
      | .property f, some v => E.call f [v]
      | .property _, none => Act.fail (.memberAccess m.name "<static>")
      | .fixed v, _ => pure v
      | .computed f, _ => E.call f []
      | .evaluator kind, some v => do return .func (← E.function (← Act.lift (Dual.expect kind v)))
      | .evaluator _, none => Act.fail (.memberAccess m.name "<static>")

/-- Runs a method that needs a target. -/
def Method.onTarget (m : Method Invoker) (target : Option Value) (run : Value → Act Value) :
    Act Value :=
  match target with
  | some v => run v
  | none => Act.fail (.memberAccess m.name "<static>")

/-- Runs a method. -/
def Method.invoke (E : Engine) (m : Method Invoker) (target : Option Value) (args : List Value) :
    Act Value :=
  if args.length ≠ m.params.length then Act.fail (.arityMismatch m.params.length args.length)
  else
    match m.invoker, args with
    | .function f, args => E.call f args
    | .method f, args => m.onTarget target fun v => E.call f (v :: args)
    | .evaluate kind, [x] => m.onTarget target fun v => do
        (← Act.lift (Dual.expect kind v)).evaluate E x
    | .toFunction kind, [x] => do
        return .func (← E.function (← Act.lift (Dual.expect kind x)))
    | .conjunction, [x, y] => do
        let lhs ← Act.lift (Dual.expect .specification x)
        let rhs ← Act.lift (Dual.expect .specification y)
        return .dual (← Dual.conjunction lhs rhs)
    | .disjunction, [x, y] => do
        let lhs ← Act.lift (Dual.expect .specification x)
        let rhs ← Act.lift (Dual.expect .specification y)
        return .dual (← Dual.disjunction lhs rhs)
    | .negation, [x] => do
        return .dual (← Dual.negation (← Act.lift (Dual.expect .specification x)))
    | .bind, args => m.onTarget target fun v =>
        match Value.factory? v with
        | some k => k.bindArguments ((args.zip m.params).map fun (arg, ty) => .ofRuntime arg ty)
        | none => Act.fail (.typeMismatch "factory" (Value.ty v).text)
    | _, args => Act.fail (.arityMismatch m.params.length args.length)

mutual

/-- The value of a tree in a scope. -/
def evaluate (E : Engine) (scope : Scope) : Expr → Act Value
  | .literal v _ => pure v
  | .param p =>
      match scope.lookup? p with
      | some v => pure v
      | none => Act.fail (.unboundParameter p.name)
  | .staticMember m => m.read E none
  | .member target m => do m.read E (some (← evaluate E scope target))
  | .staticCall m args => do m.invoke E none (← evaluateAll E scope args)
  | .call target m args => do
      let v ← evaluate E scope target
      m.invoke E (some v) (← evaluateAll E scope args)
  | .binary _ lhs rhs (some m) => do
      let l ← evaluate E scope lhs
      let r ← evaluate E scope rhs
      m.invoke E none [l, r]
  | .binary .andAlso lhs rhs none => do
      if ← Act.lift (Value.expectBool "&&" (← evaluate E scope lhs)) then
        return .bool (← Act.lift (Value.expectBool "&&" (← evaluate E scope rhs)))
      else return .bool false
  | .binary .orElse lhs rhs none => do
      if ← Act.lift (Value.expectBool "||" (← evaluate E scope lhs)) then return .bool true
      else return .bool (← Act.lift (Value.expectBool "||" (← evaluate E scope rhs)))
  | .binary op lhs rhs none => do
      let l ← evaluate E scope lhs
      let r ← evaluate E scope rhs
      Act.lift (Value.applyBinary op l r)
  | .unary op operand via ty => do
      let v ← evaluate E scope operand
      match via with
      | some m => m.invoke E none [v]
      | none => Act.lift (Value.applyUnary op v ty)
  | .lambda params body => return .func (← Act.newFunc params.length (.closure ⟨params, body⟩ scope))
  | .invoke callee args => do
      let v ← evaluate E scope callee
      let args ← evaluateAll E scope args
      match v with
      | .func f => E.call f args
      | v => Act.fail (.typeMismatch "function" (Value.ty v).text)
  | .conditional test ifTrue ifFalse => do
      if ← Act.lift (Value.expectBool "?:" (← evaluate E scope test)) then evaluate E scope ifTrue
      else evaluate E scope ifFalse

/-- The values of a list of trees, left to right. -/
def evaluateAll (E : Engine) (scope : Scope) : List Expr → Act (List Value)
  | [] => return []
  | t :: ts => do
      let v ← evaluate E scope t
      return v :: (← evaluateAll E scope ts)

end

end DualForm
