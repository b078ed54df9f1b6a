import DualForm.Member

/-!
# Plain data

* `Datum φ δ κ` — dynamic values whose functions come from `φ`, duals from `δ` and factories from
  `κ`. Records carry the identity they were created with.
* `Datum.fieldOf?` — the first field of a record with a given name.
-/

namespace DualForm

/-- Dynamic value. -/
inductive Datum (φ δ κ : Type) where
  | null
  | bool (b : Bool)
  | int (n : Int64)
  | float (x : Float)
  | str (s : String)
  | list (items : List (Datum φ δ κ))
  /-- Object with named fields under a declaring type. -/
  | record (id : Nat) (declaring : DeclaringType) (fields : List (String × Datum φ δ κ))
  | func (f : φ)
  | dual (d : δ)
  | factory (k : κ)
deriving Inhabited

namespace Datum

variable {φ δ κ : Type}

/-- Whether the value is null. -/
def isNull : Datum φ δ κ → Bool
  | .null => true
  | _ => false

/-- The first field with this name. -/
def fieldOf? (fields : List (String × Datum φ δ κ)) (name : String) : Option (Datum φ δ κ) :=
  (fields.find? (·.1 = name)).map (·.2)

/-- Whether the value is a record of a synthesized container type. -/
def isContainer : Datum φ δ κ → Bool
  | .record _ declaring _ => declaring.synthesized
  | _ => false

/-- Booleans. -/
def bool? : Datum φ δ κ → Option Bool
  | .bool b => some b
  | _ => none

/-- Integers. -/
def int? : Datum φ δ κ → Option Int64
  | .int n => some n
  | _ => none

/-- Floats, and integers as floats. -/
def float? : Datum φ δ κ → Option Float
  | .float x => some x
  | .int n => some n.toFloat
  | _ => none

/-- Strings. -/
def str? : Datum φ δ κ → Option String
  | .str s => some s
  | _ => none

/-- Lists. -/
def list? : Datum φ δ κ → Option (List (Datum φ δ κ))
  | .list items => some items
  | _ => none

/-- Functions. -/
def func? : Datum φ δ κ → Option φ
  | .func f => some f
  | _ => none

end Datum

end DualForm
