import DualForm.Factory.Basic
import DualForm.Host.Recipe
import DualForm.Host.Routine

/-!
# Following recipes

* `Surroundings` — the parameters made by the lambda recipes around, innermost first, and the captured
  arguments of the builder.
* `ExprRecipe.make` and the like — follow a recipe. Parts are made in the order a reader meets them,
  except that the arguments of a call come before its target and the method of a conversion comes
  first; the first failure ends it.
* `Builder.make`, `DecompilerRecipe.make` — run a builder or a decompiler.
-/

namespace DualForm

/-- What a recipe is followed in. -/
structure Surroundings where
  params : List (String × Param)
  captured : List Captured

namespace Surroundings

/-- The parameter known under a key. -/
def param (S : Surroundings) (key : String) : Act Param :=
  match S.params.find? (·.1 = key) with
  | some (_, p) => pure p
  | none => Act.fail (.unboundParameter key)

/-- A captured argument. -/
def argument (S : Surroundings) (index : Nat) : Act Captured :=
  match S.captured[index]? with
  | some c => pure c
  | none => Act.fail (.host ("no captured argument " ++ toString index))

/-- Makes the parameters of a lambda, each visible to those after it. -/
def declare (S : Surroundings) : List Binder → Act (List Param × Surroundings)
  | [] => return ([], S)
  | binder :: rest => do
      let (p, S) ← match binder with
        | .fresh key name ty => do
            let p : Param := ⟨← Act.freshId, name, ty⟩
            pure (p, { S with params := (key, p) :: S.params })
        | .scoped key => do pure (← S.param key, S)
        | .known p => pure (p, S)
      let (ps, S) ← S.declare rest
      return (p :: ps, S)

end Surroundings

mutual

/-- Makes a tree. -/
def ExprRecipe.make (E : Engine) (S : Surroundings) : ExprRecipe → Act Expr
  | .done t => return t
  | .scoped key => return .param (← S.param key)
  | .constant v => return Tree.constant (← v.make E S)
  | .literal v ty => return .literal (← v.make E S) ty
  | .staticMember m => return .staticMember (← m.make E S)
  | .member m target => do
      let m ← m.make E S
      return .member (← target.make E S) m
  | .staticCall m args => do
      let m ← m.make E S
      return .staticCall m (← ExprRecipe.makeAll E S args)
  | .call m args target => do
      let m ← m.make E S
      let args ← ExprRecipe.makeAll E S args
      return .call (← target.make E S) m args
  | .operation op lhs rhs => do
      let l ← lhs.make E S
      return .operation op l (← rhs.make E S)
  | .operationVia op lhs rhs via => do
      let l ← lhs.make E S
      let r ← rhs.make E S
      return .binary op l r (some (← via.make E S))
  | .complement operand => return (← operand.make E S).complement
  | .negation operand => return (← operand.make E S).negation
  | .unaryVia op operand via => do
      let x ← operand.make E S
      return x.unaryVia op (← via.make E S)
  | .convert operand ty => return .unary .convert (← operand.make E S) none ty
  | .convertVia via operand ty => do
      let m ← via.make E S
      return .unary .convert (← operand.make E S) (some m) ty
  | .lambda binders body => do
      let (ps, S) ← S.declare binders
      return .lambda ps (← body.make E S)
  | .invoke callee args => do
      let f ← callee.make E S
      return .invoke f (← ExprRecipe.makeAll E S args)
  | .conditional test ifTrue ifFalse => do
      let a ← test.make E S
      let b ← ifTrue.make E S
      return .conditional a b (← ifFalse.make E S)
  | .invoked d arg => return d.invoked (← arg.make E S)
  | .called d arg => return d.called (← arg.make E S)
  | .treeOf d => return (← E.tree d).tree
  | .bind k args => return k.bindExpr (← ExprRecipe.makeAll E S args)
  | .bindFirst k arg => return k.bindFirstExpr (← arg.make E S)
  | .bothHold lhs rhs => do
      let l ← lhs.make E S
      Act.lift (Specification.conjunctionExpr l (← rhs.make E S))
  | .eitherHolds lhs rhs => do
      let l ← lhs.make E S
      Act.lift (Specification.disjunctionExpr l (← rhs.make E S))
  | .notHolds operand => do Act.lift (Specification.negationExpr (← operand.make E S))
  | .captured index => do (← S.argument index).expr
  | .capturedValue index => return Tree.constant (← (← S.argument index).get E)

/-- Makes a list of trees. -/
def ExprRecipe.makeAll (E : Engine) (S : Surroundings) : List ExprRecipe → Act (List Expr)
  | [] => return []
  | r :: rs => do
      let t ← r.make E S
      return t :: (← ExprRecipe.makeAll E S rs)

/-- Makes a value. -/
def ValueRecipe.make (E : Engine) (S : Surroundings) : ValueRecipe → Act Value
  | .done v => return v
  | .list items => return .list (← ValueRecipe.makeAll E S items)
  | .func f => return .func (← f.make E S)
  | .record declaring fields => do
      Act.newRecord declaring (← ValueRecipe.makeFields E S fields)

/-- Makes a list of values. -/
def ValueRecipe.makeAll (E : Engine) (S : Surroundings) : List ValueRecipe → Act (List Value)
  | [] => return []
  | r :: rs => do
      let v ← r.make E S
      return v :: (← ValueRecipe.makeAll E S rs)

/-- Makes the fields of a record. -/
def ValueRecipe.makeFields (E : Engine) (S : Surroundings) :
    List (String × ValueRecipe) → Act (List (String × Value))
  | [] => return []
  | (name, r) :: rs => do
      let v ← r.make E S
      return (name, v) :: (← ValueRecipe.makeFields E S rs)

/-- Makes a function. -/
def FuncRecipe.make (E : Engine) (S : Surroundings) : FuncRecipe → Act Func
  | .done f => return f
  | .compiled e => do compile (← Act.lift (← e.make E S).expectLambda)
  | .routine name arity held => do
      Act.newFunc arity (.host name (← ValueRecipe.makeAll E S held))
  | .flaky fails f => do
      let f ← f.make E S
      Act.newFunc f.arity (.host "flaky" [.int (Int64.ofNat fails), .func f])
  | .trace label f => do
      let f ← f.make E S
      Act.newFunc f.arity (.host "trace" [.str label, .func f])

/-- Makes a member. -/
def MemberRecipe.make (E : Engine) (S : Surroundings) : MemberRecipe → Act (Member Getter)
  | .done m => return m
  | .staticField declaring name ty v =>
      return ⟨⟨declaring, name, ty, .field, true⟩, .fixed (← v.make E S)⟩
  | .property declaring name ty f =>
      return ⟨⟨declaring, name, ty, .property, false⟩, .property (← f.make E S)⟩
  | .staticProperty declaring name ty f =>
      return ⟨⟨declaring, name, ty, .property, true⟩, .computed (← f.make E S)⟩

/-- Makes a method. -/
def MethodRecipe.make (E : Engine) (S : Surroundings) : MethodRecipe → Act (Method Invoker)
  | .done m => return m
  | .onArguments declaring name params result f =>
      return ⟨⟨declaring, name, params, result, true⟩, .function (← f.make E S)⟩
  | .onTarget declaring name params result f =>
      return ⟨⟨declaring, name, params, result, false⟩, .method (← f.make E S)⟩

end

namespace Builder

variable {α β : Type}

/-- Log line for a captured argument. -/
def shownText (c : Captured) : String :=
  c.inspect ++ " of " ++ c.formal.text ++ " deferred=" ++ Value.boolText c.isDeferred

/-- Runs a builder on captured arguments. -/
def make (E : Engine) (follow : Surroundings → α → Act β) (args : List Captured) :
    Builder α → Act β
  | .recipe r => follow ⟨[], args⟩ r
  | .fail message => Act.fail (.host message)
  | .trace label next => do
      Act.logLine label
      next.make E follow args
  | .shown index next => do
      Act.logLine (shownText (← (Surroundings.mk [] args).argument index))
      next.make E follow args
  | .flaky id fails next => do
      failFirst id fails
      next.make E follow args
  | .choose index v same other => do
      let current ← (← (Surroundings.mk [] args).argument index).get E
      if Value.same current v then same.make E follow args else other.make E follow args

end Builder

namespace DecompilerRecipe

/-- Reconstructs a tree from a function. -/
def make (E : Engine) (f : Func) : DecompilerRecipe → Act Lam
  | .tree e => do Act.lift (← e.make E ⟨[], []⟩).expectLambda
  | .fail message => Act.fail (.decompile message)
  | .probe v => do
      let result ← E.call f [v]
      return ⟨[⟨← Act.freshId, "x", .any⟩], Tree.constant result⟩
  | .trace label next => do
      Act.logLine (label ++ "(" ++ f.inspect ++ ")")
      next.make E f

end DecompilerRecipe

end DualForm
