import DualForm.Decimal.Layout
import DualForm.Text.Quoted
import DualForm.Value.Basic

/-!
# Written form of values

* `Value.text` — the form values take in printed trees and in error messages. Objects are named by
  their type and functions by their arity.
* `Value.plain` — the same, with strings unquoted, as concatenation needs them.
-/

namespace DualForm

namespace Value

/-- Written form of a boolean. -/
def boolText (b : Bool) : String := if b then "true" else "false"

mutual

/-- Written form of a value. -/
def text : Value → String
  | .null => "null"
  | .bool b => boolText b
  | .int n => toString n.toInt
  | .float x => FloatLayout.literal.text x
  | .str s => quoted s
  | .list items => "[" ++ ", ".intercalate (texts items) ++ "]"
  | .record _ declaring _ => declaring.name
  | .func f => "<func/" ++ toString f.arity ++ ">"
  | .dual d => d.signature.text
  | .factory k => k.signature.text

/-- Written forms of a list of values. -/
def texts : List Value → List String
  | [] => []
  | v :: vs => text v :: texts vs

end

/-- Written form with strings unquoted. -/
def plain : Value → String
  | .str s => s
  | v => text v

/-- What identifies an object to a reader, if the value is one. -/
def objectText? : Value → Option String
  | v@(.record ..) | v@(.dual _) | v@(.factory _) => some (text v)
  | _ => none

end Value

end DualForm
