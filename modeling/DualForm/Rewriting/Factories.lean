import DualForm.Rewriting.Rule

/-!
# Binding factories in trees

A binding call on a factory whose receiver folds is carried out while rewriting, and the call becomes
a literal that holds the result.

* `isBinding` — the methods that bind factories.
* `bindingArgument` — what is bound for an argument tree: a value if the tree folds, the lambda itself
  if it has no parameters, otherwise an accessor over the tree, so that reads of parameters around
  the call survive.
* `factoryRule` — the pass.
-/

namespace DualForm

/-- Whether a method binds parameters of a factory. -/
def isBinding (m : Method Invoker) : Bool :=
  m.declaring.wrapper?.any Wrapper.isFactory &&
    (m.name = Factory.bindName || m.name = Factory.bindFirstName)

/-- The argument bound for a rewritten tree. -/
def bindingArgument (E : Engine) (t : Expr) : Act Argument := do
  match ← tryEvaluate E t with
  | some v => return .value v
  | none =>
      match t with
      | .lambda [] body => return .deferred (← Deferred.ofLambda ⟨[], body⟩)
      | t => return .deferred (← Deferred.ofSubtree t)

/-- Binds factories whose receiver folds. -/
def factoryRule (E : Engine) : Rule
  | n@(.staticCall m _) =>
      if isBinding m then Act.fail (n.given.unexpected "a factory receiver") else n.rebuild
  | n@(.call (_, rewriteReceiver) m args) =>
      if ¬ isBinding m then n.rebuild
      else do
        let receiver ← rewriteReceiver
        let v ← evaluateNotNull E receiver
        match Value.factory? v with
        | none => Act.fail (receiver.unexpected "a factory")
        | some k =>
            let args ← args.mapM fun (_, rewriteArg) => do bindingArgument E (← rewriteArg)
            let bound ← k.bindArguments args
            return .literal bound (Value.ty bound)
  | n => n.rebuild

end DualForm
