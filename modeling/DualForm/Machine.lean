import DualForm.Dual.Forms

/-!
# The machine

* `Func.apply` — one call of a function: the arity is checked, then its code runs.
* `machine` — the engine that allows a number of nested steps. With none left it answers nothing;
  otherwise each answer is one step over the machine with one less.

A step that succeeds or fails does so with every larger number as well; only `Stop.exhausted` depends
on the bound.
-/

namespace DualForm

/-- Calls a predicate that takes part in a combination. -/
def Func.holds (E : Engine) (f : Func) (context : String) (x : Value) : Act Bool := do
  Act.lift (Value.expectBool context (← E.call f [x]))

/-- Runs the code of a function on as many arguments as it takes. -/
def Code.run (host : Host) (E : Engine) (self : Nat) (code : Code) (args : List Value) : Act Value :=
  match code, args with
  | .closure l scope, args => evaluate E (Scope.bindAll scope l.params args) l.body
  | .host routine held, args => host.run E self routine held args
  | .chain inner outer, [x] => do E.call outer [← E.call inner [x]]
  | .conjunction lhs rhs, [x] => do
      if ← lhs.holds E Specification.andName x then
        return .bool (← rhs.holds E Specification.andName x)
      else return .bool false
  | .disjunction lhs rhs, [x] => do
      if ← lhs.holds E Specification.orName x then return .bool true
      else return .bool (← rhs.holds E Specification.orName x)
  | .negation predicate, [x] => return .bool (!(← predicate.holds E Specification.notName x))
  | .rebuilt builders bindings, [x] => do
      E.call (← Bindings.built host E builders bindings) [x]
  | _, args => Act.fail (.arityMismatch 1 args.length)

/-- One call of a function. -/
def Func.apply (host : Host) (E : Engine) (f : Func) (args : List Value) : Act Value :=
  if args.length ≠ f.arity then Act.fail (.arityMismatch f.arity args.length)
  else f.code.run host E f.id args

/-- The engine that allows `n` nested steps. -/
def machine (host : Host) : Nat → Engine
  | 0 => .exhausted
  | n + 1 =>
      { call := fun f args s => f.apply host (machine host n) args s
        tree := fun d s => d.forceTree host (machine host n) s
        function := fun d s => d.forceFunction host (machine host n) s
        rewrite := fun pass t s => pass.run (machine host n) t s }

end DualForm
