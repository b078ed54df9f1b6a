/-!
# Doubles as scaled integers

* `Binary64` — a double read exactly: not a number, an infinity, or `± significand · 2 ^ exponent`.
* `Binary64.ofFloat`, `Binary64.toFloat` — reading the bits of a double and writing them back.
* `twoPow` — powers of two.
* `remainder` — the exact remainder of a division truncated toward zero; it has the sign of the
  dividend and is always representable, so nothing is rounded.
-/

namespace DualForm

/-- Two to the power `k`. -/
def twoPow (k : Nat) : Nat := Nat.pow 2 k

/-- A double, read exactly. -/
inductive Binary64 where
  | nan
  | infinite (negative : Bool)
  | finite (negative : Bool) (significand : Nat) (exponent : Int)
deriving DecidableEq, Repr, Inhabited

namespace Binary64

/-- Reads the bits: one sign bit, eleven exponent bits, fifty-two fraction bits. -/
def ofBits (bits : Nat) : Binary64 :=
  let negative := decide (twoPow 63 ≤ bits)
  let field : Nat := bits / twoPow 52 % twoPow 11
  let fraction := bits % twoPow 52
  if field = 2047 then
    if fraction = 0 then .infinite negative else .nan
  else if field = 0 then .finite negative fraction (-1074)
  else .finite negative (fraction + twoPow 52) ((field : Int) - 1075)

/-- Bits of a magnitude below `2 ^ 53` units of `2 ^ exponent`, with `-1074 ≤ exponent`. -/
def magnitudeBits (significand : Nat) (exponent : Int) : Nat :=
  if significand = 0 then 0
  else
    let shift := min (52 - significand.log2) (exponent + 1074).toNat
    let scaled := significand * twoPow shift
    if scaled < twoPow 52 then scaled
    else (exponent - shift + 1075).toNat * twoPow 52 + (scaled - twoPow 52)

/-- Writes the bits back. -/
def toBits : Binary64 → Nat
  | .nan => 2047 * twoPow 52 + twoPow 51
  | .infinite negative => (if negative then twoPow 63 else 0) + 2047 * twoPow 52
  | .finite negative significand exponent =>
      (if negative then twoPow 63 else 0) + magnitudeBits significand exponent

/-- The exact reading of a double. -/
def ofFloat (x : Float) : Binary64 := ofBits x.toBits.toNat

/-- The double with this exact reading. -/
def toFloat (b : Binary64) : Float := Float.ofBits (UInt64.ofNat b.toBits)

end Binary64

/-- Remainder of `x` by `y`, the quotient truncated toward zero. -/
def remainder (x y : Float) : Float :=
  match Binary64.ofFloat x, Binary64.ofFloat y with
  | .finite negative m p, .finite _ n q =>
      if n = 0 then Binary64.nan.toFloat
      else
        let unit := min p q
        let a := m * twoPow (p - unit).toNat
        let b := n * twoPow (q - unit).toNat
        (Binary64.finite negative (a % b) unit).toFloat
  | .finite .., .infinite _ => x
  | _, _ => Binary64.nan.toFloat

end DualForm
