import DualForm.Factory.Basic
import DualForm.Tree.Capture

/-!
# The forms of a fully bound factory

* `Argument.captured`, `Argument.resolved` — an argument as builders see it: as it is for the tree, and
  with its accessor read for the function.
* `Builders.buildTree`, `Builders.buildFunction` — what the host builds from captured arguments.
* `Bindings.tree` — the tree form: the built lambda with every closure read of a deferred parameter
  replaced by the body of its accessor, parameter after parameter.
* `Bindings.function` — the function form: built once from the values, or, when some argument is
  deferred, built anew on every call from the accessors read then.
-/

namespace DualForm

namespace Argument

/-- The argument as the tree builder sees it. -/
def captured (formal : FormalParam) : Argument → Captured
  | .value v => ⟨formal, .value v⟩
  | .deferred accessor => ⟨formal, .accessor accessor.func⟩

/-- The argument with its accessor read. -/
def resolved (E : Engine) (formal : FormalParam) : Argument → Act Captured
  | .value v => return ⟨formal, .value v⟩
  | .deferred accessor => return ⟨formal, .value (← Deferred.get E accessor)⟩

end Argument

namespace Builders

/-- Builds the tree, which must have one parameter. -/
def buildTree (host : Host) (E : Engine) (b : Builders) (args : List Captured) : Act Lam := do
  let l ← match b with
    | .tree build | .both _ build => host.buildTree E build args
    | .function func decompiler => do
        host.decompile E decompiler (← host.buildFunction E func args)
  let _ ← Act.lift (l.expectSingle "expression")
  return l

/-- Builds the function. -/
def buildFunction (host : Host) (E : Engine) (b : Builders) (args : List Captured) : Act Func :=
  match b with
  | .tree build => do compile (← host.buildTree E build args)
  | .both func _ | .function func _ => host.buildFunction E func args

end Builders

/-- Formal parameters with their arguments, in declaration order. -/
abbrev Bindings := List (FormalParam × Argument)

namespace Bindings

/-- Whether some argument is read through an accessor. -/
def isDeferred (bs : Bindings) : Bool := bs.any fun b => b.2.isDeferred

/-- Every argument with its accessor read, in order. -/
def resolved (E : Engine) (bs : Bindings) : Act (List Captured) :=
  bs.mapM fun (formal, arg) => arg.resolved E formal

/-- Replaces the closure reads of one deferred parameter in a body. -/
def splice (host : Host) (E : Engine) (body : Expr) : FormalParam × Argument → Act Expr
  | (_, .value _) => return body
  | (formal, .deferred accessor) =>
      return Tree.bindArgument formal (← Deferred.body host E accessor) body

/-- The tree before rewriting. -/
def tree (host : Host) (E : Engine) (builders : Builders) (bs : Bindings) : Act Lam := do
  let l ← builders.buildTree host E (bs.map fun (formal, arg) => arg.captured formal)
  return { l with body := ← bs.foldlM (splice host E) l.body }

/-- The function, built from the arguments as they are now. -/
def built (host : Host) (E : Engine) (builders : Builders) (bs : Bindings) : Act Func := do
  builders.buildFunction host E (← bs.resolved E)

/-- The function form. -/
def function (host : Host) (E : Engine) (builders : Builders) (bs : Bindings) : Act Func :=
  if bs.isDeferred then Act.newFunc 1 (.rebuilt builders bs) else bs.built host E builders

end Bindings

end DualForm
