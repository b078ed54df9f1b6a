import DualForm.Error
import DualForm.Value.Text

/-!
# What operators compute

* `applyBinary` — built-in binary operators on evaluated operands. Integers wrap at 64 bits, a mix of
  integers and floats is computed in floats, and adding a string to anything concatenates.
* `applyUnary` — built-in unary operators.
* `convertValue` — built-in conversion: between integers and floats, and otherwise the value itself
  where the type accepts it.
* `expectBool` — the boolean a value is, or an error that names where it was needed.

Operands an operator does not support are an error, and so is an integer division by zero.
-/

namespace DualForm

namespace Value

/-- Conjunctions and disjunctions of booleans. -/
def booleanOperation (op : BinaryOp) (a b : Bool) : Option Value :=
  match op with
  | .andAlso | .and => some (.bool (a && b))
  | .orElse | .or => some (.bool (a || b))
  | _ => none

/-- Operations on integers. Division by zero has no result. -/
def integerOperation (op : BinaryOp) (a b : Int64) : Option Value :=
  match op with
  | .add => some (.int (a + b))
  | .sub => some (.int (a - b))
  | .mul => some (.int (a * b))
  | .div => if b = 0 then none else some (.int (a / b))
  | .rem => if b = 0 then none else some (.int (a % b))
  | .and => some (.int (a &&& b))
  | .or => some (.int (a ||| b))
  | .less => some (.bool (a < b))
  | .lessEqual => some (.bool (a ≤ b))
  | .greater => some (.bool (b < a))
  | .greaterEqual => some (.bool (b ≤ a))
  | _ => none

/-- Operations on floats. -/
def floatOperation (op : BinaryOp) (a b : Float) : Option Value :=
  match op with
  | .add => some (.float (a + b))
  | .sub => some (.float (a - b))
  | .mul => some (.float (a * b))
  | .div => some (.float (a / b))
  | .rem => some (.float (remainder a b))
  | .less => some (.bool (a < b))
  | .lessEqual => some (.bool (a ≤ b))
  | .greater => some (.bool (b < a))
  | .greaterEqual => some (.bool (b ≤ a))
  | _ => none

/-- Concatenation and comparison of strings, by code points. -/
def stringOperation (op : BinaryOp) (a b : String) : Option Value :=
  match op with
  | .add => some (.str (a ++ b))
  | .less => some (.bool (a < b))
  | .lessEqual => some (.bool (¬ b < a))
  | .greater => some (.bool (b < a))
  | .greaterEqual => some (.bool (¬ a < b))
  | _ => none

/-- Result of a binary operator, if it supports the operands. -/
def binaryResult? (op : BinaryOp) (lhs rhs : Value) : Option Value :=
  if op = .equal then some (.bool (same lhs rhs))
  else if op = .notEqual then some (.bool (!same lhs rhs))
  else
    match lhs, rhs with
    | .bool a, .bool b => booleanOperation op a b
    | .int a, .int b => integerOperation op a b
    | .str a, .str b => stringOperation op a b
    | .str a, v => if op = .add then some (.str (a ++ plain v)) else none
    | v, .str b => if op = .add then some (.str (plain v ++ b)) else none
    | v, w =>
        match v.float?, w.float? with
        | some a, some b => floatOperation op a b
        | _, _ => none

/-- The error for operands an operator does not support. -/
def unsupportedOperands (symbol : String) (operands : List Value) : Error :=
  .invalidOperands symbol (" and ".intercalate ((texts operands).map fun t => "`" ++ t ++ "`"))

/-- Built-in binary operators. -/
def applyBinary (op : BinaryOp) (lhs rhs : Value) : Except Error Value :=
  match binaryResult? op lhs rhs with
  | some v => .ok v
  | none => .error (unsupportedOperands op.symbol [lhs, rhs])

/-- Built-in conversion to a type. -/
def convertValue (v : Value) (target : Ty) : Except Error Value :=
  match v, target with
  | .int n, .float => .ok (.float n.toFloat)
  | .float x, .int => .ok (.int x.toInt64)
  | .null, _ => .ok .null
  | v, target =>
      if target.accepts (ty v) then .ok v
      else .error (.typeMismatch target.text (ty v).text)

/-- Built-in unary operators. -/
def applyUnary (op : UnaryOp) (operand : Value) (target : Ty) : Except Error Value :=
  match op, operand with
  | .not, .bool b => .ok (.bool !b)
  | .negate, .int n => .ok (.int (-n))
  | .negate, .float x => .ok (.float (-x))
  | .convert, v => convertValue v target
  | op, v => .error (unsupportedOperands op.symbol [v])

/-- The boolean a value is. -/
def expectBool (context : String) (v : Value) : Except Error Bool :=
  match v with
  | .bool b => .ok b
  | v => .error (.typeMismatch ("bool (" ++ context ++ ")") (ty v).text)

end Value

end DualForm
