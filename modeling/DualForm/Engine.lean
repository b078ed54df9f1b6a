import DualForm.Store
import DualForm.Value.Text

/-!
# The engine and the host

Evaluating a tree may call functions, which may evaluate trees, ask duals for their forms and rewrite
trees, and so on. A step is written against an `Engine` that answers these requests, and
`DualForm.Machine` ties the steps together.

* `DualPass` — the passes that remove references to duals and factories.
* `Engine` — what a step may ask for.
* `Captured` — an argument of a factory as host builders see it.
* `Host` — the code supplied from outside: routines of host functions, builders and decompilers.
-/

namespace DualForm

/-- The passes that remove references to duals and factories. -/
inductive DualPass where
  /-- Binds factories whose receiver is known. -/
  | factories
  /-- Combines specifications. -/
  | combinators
  /-- Replaces duals of one kind by their trees. -/
  | inlining (kind : DualKind)
deriving DecidableEq, Repr, Inhabited

/-- What a step may ask for. -/
structure Engine where
  /-- Calls a function. -/
  call : Func → List Value → Act Value
  /-- The tree form of a dual. -/
  tree : Dual → Act Lam
  /-- The function form of a dual. -/
  function : Dual → Act Func
  /-- Runs a pass over a tree. -/
  rewrite : DualPass → Expr → Act Expr

/-- The engine that answers nothing. -/
def Engine.exhausted : Engine where
  call _ _ := throw .exhausted
  tree _ := throw .exhausted
  function _ := throw .exhausted
  rewrite _ _ := throw .exhausted

/-- Where a builder gets an argument from. -/
inductive CapturedSource where
  | value (v : Value)
  /-- Read through an accessor each time. -/
  | accessor (f : Func)

/-- An argument of a factory as a builder sees it. -/
structure Captured where
  formal : FormalParam
  source : CapturedSource

namespace Captured

/-- Whether the argument is read through an accessor. -/
def isDeferred (c : Captured) : Bool :=
  match c.source with
  | .value _ => false
  | .accessor _ => true

/-- The current value. -/
def get (E : Engine) (c : Captured) : Act Value :=
  match c.source with
  | .value v => pure v
  | .accessor f => E.call f []

/-- Container type of a captured argument. -/
def container (formal : FormalParam) : DeclaringType := .closure ("<closure>" ++ formal.name)

/-- The field of the container that holds the argument. -/
def field (formal : FormalParam) : Member Getter :=
  { declaring := container formal, name := formal.name, ty := formal.ty, kind := .field
    isStatic := false, getter := .field }

/-- What the container stores: the value, or null when it is read later. -/
def stored (c : Captured) : Value :=
  match c.source with
  | .value v => v
  | .accessor _ => .null

/-- The read a closure would make of the argument, on a container of its own. -/
def expr (c : Captured) : Act Expr := do
  let holder ← Act.newRecord (container c.formal) [(c.formal.name, c.stored)]
  return .member (.literal holder (container c.formal).ty) (field c.formal)

/-- Inspection text. -/
def inspect (c : Captured) : String :=
  let shown := match c.source with
    | .value v => v.text
    | .accessor _ => "<deferred>"
  "Captured(" ++ c.formal.text ++ " = " ++ shown ++ ")"

end Captured

/-- Code supplied from outside. -/
structure Host where
  /-- Runs a routine for the function with this identity, on the values it holds and its
  arguments. -/
  run : Engine → Nat → String → List Value → List Value → Act Value
  /-- Builds a tree from factory arguments. -/
  buildTree : Engine → BuilderId → List Captured → Act Lam
  /-- Builds a function from factory arguments. -/
  buildFunction : Engine → BuilderId → List Captured → Act Func
  /-- Reconstructs a tree from a function. -/
  decompile : Engine → DecompilerId → Func → Act Lam

end DualForm
