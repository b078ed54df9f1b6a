import DualForm.Decimal.Binary64
import DualForm.Decimal.Shortest

/-!
# Written form of doubles

* `FloatLayout` — the decisions of a written form: which magnitudes are written with an exponent,
  and whether a whole number keeps `.0`.
* `FloatLayout.literal` — the form literals take: an exponent from `1e16` on and below `1e-4`.
* `FloatLayout.positional` — the form of inspection texts: never an exponent, nothing after a whole
  number.
* `FloatLayout.text` — a double written in a layout.
-/

namespace DualForm

/-- How a double is written. -/
structure FloatLayout where
  /-- Whether a value whose leading digit has this place is written with an exponent. -/
  scientific : Int → Bool
  /-- Whether a whole number is followed by `.0`. -/
  keepsPoint : Bool

namespace FloatLayout

/-- Literals: an exponent outside `1e-4 ≤ |x| < 1e16`, and always a point or an exponent. -/
def literal : FloatLayout := ⟨fun place => place < -4 || 16 ≤ place, true⟩

/-- Inspection texts: all digits in place. -/
def positional : FloatLayout := ⟨fun _ => false, false⟩

/-- A run of zeros. -/
def zeros (n : Nat) : String := String.ofList (List.replicate n '0')

/-- Digits written in place. -/
def inPlace (layout : FloatLayout) (d : Decimal) : String :=
  let ds := Nat.toDigits 10 d.digits
  if 0 ≤ d.exponent then
    String.ofList ds ++ zeros d.exponent.toNat ++ (if layout.keepsPoint then ".0" else "")
  else
    let behind := (-d.exponent).toNat
    if behind < ds.length then
      String.ofList (ds.take (ds.length - behind)) ++ "." ++
        String.ofList (ds.drop (ds.length - behind))
    else "0." ++ zeros (behind - ds.length) ++ String.ofList ds

/-- One digit, the others behind the point, and the exponent of ten. -/
def withExponent (d : Decimal) : String :=
  let rest := (Nat.toDigits 10 d.digits).drop 1
  String.ofList ((Nat.toDigits 10 d.digits).take 1) ++
    (if rest.isEmpty then "" else "." ++ String.ofList rest) ++ "e" ++ toString d.place

/-- Text of a positive finite value. -/
def magnitude (layout : FloatLayout) (m : Nat) (q : Int) : String :=
  let d := Decimal.shortest m q
  if layout.scientific d.place then withExponent d else layout.inPlace d

/-- Text of a double. -/
def text (layout : FloatLayout) (x : Float) : String :=
  match Binary64.ofFloat x with
  | .nan => "NaN"
  | .infinite negative => if negative then "-inf" else "inf"
  | .finite negative m q =>
      (if negative then "-" else "") ++
        (if m = 0 then layout.inPlace ⟨0, 0⟩ else layout.magnitude m q)

end FloatLayout

end DualForm
