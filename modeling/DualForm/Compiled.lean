import DualForm.Composition
import DualForm.Engine

/-!
# Functions with a tree form

* `compile` — a lambda as a function value.
* `Compiled.ofLambda`, `Compiled.ofFunc` — a function with the tree it was compiled from, or alone.
* `Compiled.tree` — the tree: the one supplied, or one reconstructed by the decompiler.
* `Compiled.check` — refuses a wrong arity, and a function whose tree could never be had.
* `Deferred` — accessors without parameters, bound in place of factory arguments.
-/

namespace DualForm

/-- The function a lambda denotes, with an identity of its own. -/
def compile (l : Lam) : Act Func := Act.newFunc l.arity (.closure l [])

/-- Inspection text of a function. -/
def Func.inspect (f : Func) : String := "Func/" ++ toString f.arity

namespace Compiled

/-- A lambda and its compiled form. -/
def ofLambda (l : Lam) : Act Compiled := return ⟨← compile l, some l, none⟩

/-- A function without a tree. -/
def ofFunc (f : Func) : Compiled := ⟨f, none, none⟩

/-- Tree form, reconstructed if it was not supplied. -/
def tree (host : Host) (E : Engine) (c : Compiled) : Act Lam :=
  match c.expression, c.decompiler with
  | some l, _ => pure l
  | none, some decompiler => host.decompile E decompiler c.func
  | none, none => Act.fail .decompilerUnavailable

/-- Refuses a function of another arity, or one whose tree could never be had. -/
def check (c : Compiled) (arity : Nat) : Except Error Unit :=
  if c.func.arity ≠ arity then
    .error (.invalidArgument "func"
      ("expected arity " ++ toString arity ++ ", got " ++ toString c.func.arity))
  else
    match c.expression, c.decompiler with
    | some l, _ =>
        if l.arity = arity then .ok ()
        else .error (.invalidArgument "expression"
          ("expected " ++ toString arity ++ " parameter(s), got " ++ toString l.arity ++ " in `" ++
            l.text ++ "`"))
    | none, some _ => .ok ()
    | none, none => .error (.invalidArgument "expression" "required when no decompiler is given")

/-- Inspection text. -/
def inspect (c : Compiled) : String :=
  let expression := match c.expression with
    | some l => "Some(" ++ quoted l.text ++ ")"
    | none => "None"
  "Compiled \x7b func: " ++ c.func.inspect ++ ", expression: " ++ expression ++ ", decompiler: " ++
    Value.boolText c.decompiler.isSome ++ " \x7d"

end Compiled

namespace Deferred

/-- Accessor `() => body`. -/
def ofLambda (accessor : Lam) : Act Compiled :=
  if accessor.params = [] then Compiled.ofLambda accessor
  else Act.fail (.invalidArgument "accessor"
    ("expected a parameterless lambda, got `" ++ accessor.text ++ "`"))

/-- Accessor for a subtree, which may read parameters of lambdas around it. -/
def ofSubtree (body : Expr) : Act Compiled := Compiled.ofLambda ⟨[], body⟩

/-- Accessor function with an optional tree or decompiler. -/
def ofCompiled (c : Compiled) : Except Error Compiled := do
  c.check 0
  return c

/-- Body of the accessor tree. -/
def body (host : Host) (E : Engine) (accessor : Compiled) : Act Expr :=
  return (← accessor.tree host E).body

/-- Reads the accessor. -/
def get (E : Engine) (accessor : Compiled) : Act Value := E.call accessor.func []

/-- Inspection text. -/
def inspect (accessor : Compiled) : String :=
  match accessor.expression with
  | some l => "Deferred(`" ++ l.text ++ "`)"
  | none => "Deferred(" ++ accessor.func.inspect ++ ")"

end Deferred

end DualForm
