import DualForm.Compiled

/-!
# Inspection texts

The text of a dual shows its tree once that has been published, so inspection depends on the store.

* `Dual.inspect`, `Value.inspect`, `Argument.inspect` — inspection texts.
* `LazyValue` — a value computed on first use, with `LazyValue.force`, `LazyValue.get?` and
  `LazyValue.inspect`.
-/

namespace DualForm

/-- Signature of a dual and its tree, if published. -/
def Dual.inspect (s : Store) (d : Dual) : String :=
  let tree := match (Slot.tree d).read s with
    | some l => "`" ++ l.text ++ "`"
    | none => "<pending>"
  d.signature.text ++ "(" ++ tree ++ ")"

namespace Value

mutual

/-- Inspection text of a value. -/
def inspect (s : Store) : Value → String
  | .null => "Null"
  | .bool b => "Bool(" ++ boolText b ++ ")"
  | .int n => "Int(" ++ toString n.toInt ++ ")"
  | .float x => "Float(" ++ FloatLayout.positional.text x ++ ")"
  | .str t => "Str(" ++ quoted t ++ ")"
  | .list items => "[" ++ ", ".intercalate (inspectAll s items) ++ "]"
  | .record _ declaring fields =>
      "Object(Record \x7b declaring: " ++ declaring.inspect ++ ", fields: [" ++
        ", ".intercalate (inspectFields s fields) ++ "] \x7d)"
  | .func f => f.inspect
  | .dual d => "Object(" ++ d.inspect s ++ ")"
  | .factory k => "Object(" ++ k.signature.text ++ ")"

/-- Inspection texts of a list of values. -/
def inspectAll (s : Store) : List Value → List String
  | [] => []
  | v :: vs => inspect s v :: inspectAll s vs

/-- Inspection texts of the fields of a record. -/
def inspectFields (s : Store) : List (String × Value) → List String
  | [] => []
  | (name, v) :: fields =>
      ("(" ++ quoted name ++ ", " ++ inspect s v ++ ")") :: inspectFields s fields

end

end Value

/-- Inspection text of an argument. -/
def Argument.inspect (s : Store) : Argument → String
  | .value v => "Value(" ++ Value.inspect s v ++ ")"
  | .deferred accessor => "Deferred(" ++ Deferred.inspect accessor ++ ")"

/-- A value computed on first use, or at hand from the start. -/
inductive LazyValue where
  | ready (v : Value)
  | onDemand (id : Nat) (init : Func)

namespace LazyValue

/-- A value that a function without arguments computes. -/
def ofFunc (init : Func) : Act LazyValue := return .onDemand (← Act.freshId) init

/-- The value, computed if need be. -/
def force (E : Engine) : LazyValue → Act Value
  | .ready v => return v
  | .onDemand id init => Act.publishOnce (.value id) (E.call init [])

/-- The value, if it is at hand. -/
def get? (s : Store) : LazyValue → Option Value
  | .ready v => some v
  | .onDemand id _ => (Slot.value id).read s

/-- Inspection text. -/
def inspect (s : Store) (l : LazyValue) : String :=
  match l.get? s with
  | some v => "Lazy(" ++ Value.inspect s v ++ ")"
  | none => "Lazy(<pending>)"

end LazyValue

end DualForm
