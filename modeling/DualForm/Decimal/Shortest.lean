import DualForm.Decimal.Binary64

/-!
# The fewest digits that read back

A positive value `m · 2 ^ q` with `m < 2 ^ 53` owns the reals that round to it: an interval whose
ends belong to it exactly when `m` is even.

* `Decimal` — digits and a power of ten.
* `leadingPlace` — the place of the first digit of a value.
* `onGrid` — the neighbours of the value on one decimal grid that lie in the interval; of two the
  nearer one, of two equally near ones the larger.
* `shortest` — the result on the coarsest grid that has one, with trailing zeros removed.
-/

namespace DualForm

/-- The number `digits · 10 ^ exponent`. -/
structure Decimal where
  digits : Nat
  exponent : Int
deriving DecidableEq, Repr, Inhabited

namespace Decimal

/-- Ten to the power `k`. -/
def tenPow (k : Nat) : Nat := Nat.pow 10 k

/-- Moves trailing zeros of the digits into the exponent. -/
def stripZeros (d : Decimal) : Decimal :=
  if h : d.digits ≠ 0 ∧ d.digits % 10 = 0 then stripZeros ⟨d.digits / 10, d.exponent + 1⟩ else d
termination_by d.digits
decreasing_by omega

/-- Place of the leading digit: `p` with `10 ^ p ≤ value < 10 ^ (p + 1)`. -/
def place (d : Decimal) : Int := d.exponent + ((Nat.toDigits 10 d.digits).length - 1 : Nat)

/-- Whether `10 ^ e ≤ m · 2 ^ q`. -/
def tenPowLe (e : Int) (m : Nat) (q : Int) : Bool :=
  tenPow e.toNat * twoPow (-q).toNat ≤ m * twoPow q.toNat * tenPow (-e).toNat

/-- Place of the leading decimal digit of `m · 2 ^ q`, for positive `m`. -/
def leadingPlace (m : Nat) (q : Int) : Int :=
  let guess := ((m.log2 : Int) + q) * 30103 / 100000
  if tenPowLe (guess + 1) m q then guess + 1
  else if tenPowLe guess m q then guess
  else guess - 1

/-- The value and the ends of its interval, in quarters of its last binary place. -/
structure Interval where
  low : Nat
  value : Nat
  high : Nat
  closed : Bool

/-- The interval of reals that round to `m · 2 ^ q`. Below a power of two the gap halves. -/
def interval (m : Nat) (q : Int) : Interval :=
  { low := 4 * m - (if m = twoPow 52 ∧ -1074 < q then 1 else 2)
    value := 4 * m
    high := 4 * m + 2
    closed := m % 2 = 0 }

/-- The neighbour of `m · 2 ^ q` on the grid of multiples of `10 ^ e` that reads back, if any. -/
def onGrid (m : Nat) (q e : Int) : Option Nat :=
  let i := interval m q
  let scale := twoPow (q - 2).toNat * tenPow (-e).toNat
  let step := twoPow (2 - q).toNat * tenPow e.toNat
  let below := i.value * scale / step
  let inside (d : Nat) : Bool :=
    if i.closed then i.low * scale ≤ d * step && d * step ≤ i.high * scale
    else i.low * scale < d * step && d * step < i.high * scale
  let nearerBelow := 2 * (i.value * scale - below * step) < step
  match inside below, inside (below + 1) with
  | true, true => some (if nearerBelow then below else below + 1)
  | true, false => some below
  | false, true => some (below + 1)
  | false, false => none

/-- Tries grids with one more digit each time. -/
def search (m : Nat) (q place : Int) : Nat → Nat → Decimal
  | 0, _ => ⟨m, q⟩
  | tries + 1, count =>
      let e := place - count
      match onGrid m q e with
      | some digits => ⟨digits, e⟩
      | none => search m q place tries (count + 1)

/-- The shortest decimal that rounds to `m · 2 ^ q`, for `0 < m < 2 ^ 53`. Seventeen digits always
suffice. -/
def shortest (m : Nat) (q : Int) : Decimal :=
  (search m q (leadingPlace m q) 18 0).stripZeros

end Decimal

end DualForm
