/-!
# Errors

* `Error` — the causes for which building, evaluating or rewriting a tree can fail. Trees, values and
  types appear in an error by their written form.
* `Error.message` — the wording of each cause.
-/

namespace DualForm

/-- Why an operation failed. -/
inductive Error where
  /-- A rule needed a value known before evaluation, and the tree has none. -/
  | unfoldable (tree : String)
  /-- A tree folded to null where a value was needed. -/
  | nullValue (tree : String)
  /-- A tree had a shape the rule does not cover. -/
  | unsupportedShape (tree expected : String)
  /-- A constructor was given something it cannot work with. -/
  | invalidArgument (argument reason : String)
  /-- A parameter was read outside of the lambda that declares it. -/
  | unboundParameter (name : String)
  /-- An operator was applied to values it does not support. -/
  | invalidOperands (op operands : String)
  /-- A function was called with the wrong number of arguments. -/
  | arityMismatch (expected found : Nat)
  /-- A member could not be read from its target. -/
  | memberAccess (member target : String)
  /-- Two types that must agree do not. -/
  | typeMismatch (expected found : String)
  /-- A tree had to be reconstructed from a function, and nothing can do so. -/
  | decompilerUnavailable
  /-- Reconstruction of a tree failed. -/
  | decompile (reason : String)
  /-- A finished tree still refers to a dual or a factory. -/
  | residualReference (tree : String)
  /-- Host code failed. -/
  | host (message : String)
deriving DecidableEq, Repr, Inhabited

/-- Wording of an error. -/
def Error.message : Error → String
  | .unfoldable tree => "Expression `" ++ tree ++ "` cannot be evaluated at rewrite time."
  | .nullValue tree =>
      "Expression `" ++ tree ++ "` evaluated to null where a value was required."
  | .unsupportedShape tree expected =>
      "Unexpected expression `" ++ tree ++ "`: expected " ++ expected ++ "."
  | .invalidArgument argument reason =>
      "Argument `" ++ argument ++ "` is invalid: " ++ reason ++ "."
  | .unboundParameter name => "Parameter `" ++ name ++ "` is not bound in the current scope."
  | .invalidOperands op operands => "Operator `" ++ op ++ "` cannot be applied to " ++ operands ++ "."
  | .arityMismatch expected found =>
      "Function expects " ++ toString expected ++ " argument(s), got " ++ toString found ++ "."
  | .memberAccess member target =>
      "Member `" ++ member ++ "` cannot be read from `" ++ target ++ "`."
  | .typeMismatch expected found =>
      "Type mismatch: expected `" ++ expected ++ "`, found `" ++ found ++ "`."
  | .decompilerUnavailable =>
      "No decompiler is available to reconstruct an expression from a compiled function."
  | .decompile reason => "Decompilation failed: " ++ reason
  | .residualReference tree =>
      "Rewritten expression `" ++ tree ++ "` still references a unit wrapper."
  | .host message => message

end DualForm
