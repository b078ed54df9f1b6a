/-!
# Built-in operators

* `BinaryOp`, `UnaryOp` — the operators, with their written forms (`symbol`).
* `BinaryOp.isPredicate` — operators whose result is a boolean whatever the operands are.
* `BinaryOp.isLogical` — conjunctions and disjunctions, short-circuiting or not.
-/

namespace DualForm

/-- Binary operators. -/
inductive BinaryOp where
  | add | sub | mul | div | rem
  | equal | notEqual | less | lessEqual | greater | greaterEqual
  /-- Short-circuiting conjunction. -/
  | andAlso
  /-- Short-circuiting disjunction. -/
  | orElse
  /-- Conjunction that evaluates both operands. -/
  | and
  /-- Disjunction that evaluates both operands. -/
  | or
deriving DecidableEq, Repr, Inhabited

namespace BinaryOp

/-- Written form. -/
def symbol : BinaryOp → String
  | .add => "+"
  | .sub => "-"
  | .mul => "*"
  | .div => "/"
  | .rem => "%"
  | .equal => "=="
  | .notEqual => "!="
  | .less => "<"
  | .lessEqual => "<="
  | .greater => ">"
  | .greaterEqual => ">="
  | .andAlso => "&&"
  | .orElse => "||"
  | .and => "&"
  | .or => "|"

/-- All operators. -/
def all : List BinaryOp :=
  [.add, .sub, .mul, .div, .rem, .equal, .notEqual, .less, .lessEqual, .greater, .greaterEqual,
    .andAlso, .orElse, .and, .or]

/-- The operator with this written form. -/
def ofSymbol? (s : String) : Option BinaryOp := all.find? (·.symbol = s)

/-- Whether the operator is a conjunction or a disjunction. -/
def isLogical : BinaryOp → Bool
  | .andAlso | .orElse | .and | .or => true
  | _ => false

/-- Whether the result is a boolean whatever the operands are. -/
def isPredicate : BinaryOp → Bool
  | .add | .sub | .mul | .div | .rem => false
  | _ => true

end BinaryOp

/-- Unary operators. -/
inductive UnaryOp where
  | not
  | negate
  /-- Conversion to a type. -/
  | convert
deriving DecidableEq, Repr, Inhabited

namespace UnaryOp

/-- Written form. -/
def symbol : UnaryOp → String
  | .not => "!"
  | .negate => "-"
  | .convert => "convert"

/-- The operator with this written form. -/
def ofSymbol? (s : String) : Option UnaryOp := [not, negate, convert].find? (·.symbol = s)

end UnaryOp

end DualForm
