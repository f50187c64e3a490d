import AssayRules.Text.Basic

/-!
# Decimal numbers and the nearest double

A number in a rule or a table is written in decimal and computed with in IEEE 754
double precision. This file turns the one into the other: `Decimal` is a natural
number times a power of ten, and `Decimal.toFloat` is the double nearest to it, ties
to the even one, with gradual underflow and overflow to infinity.

Nothing is approximated on the way. A positive rational `n / d` lies on the grid of
multiples of `2 ^ q`, where `q` is the weight of the last bit a double of that size
has (`Binary64.lastBit`); dividing by that weight and rounding the quotient to a
whole number is the only rounding there is. The bits of the result follow without
cases: with the quotient `k`, they are `k + (q + 1074) * 2 ^ 52`. A subnormal has
`q = -1074` and bits `k`; for a normal number the leading bit of `k` adds the one
that its exponent field lacks; and a `k` that rounded up to `2 ^ 53` carries into the
exponent field by itself.
-/

namespace AssayRules

namespace Binary64

/-- The quotient `n / d` rounded to a whole number, a half to the even neighbour. -/
def roundQuotient (n d : Nat) : Nat :=
  let whole := n / d
  let rest := n % d
  if 2 * rest < d then whole
  else if d < 2 * rest then whole + 1
  else whole + whole % 2

/-- The exponent `e` with `2 ^ e ≤ n / d < 2 ^ (e + 1)`. The lengths of `n` and `d`
leave two candidates, between which one comparison decides. -/
def magnitude (n d : Nat) : Int :=
  let e : Int := (n.log2 : Int) - (d.log2 : Int)
  if d * Nat.pow 2 e.toNat ≤ n * Nat.pow 2 (-e).toNat then e else e - 1

/-- The weight of the last bit of a double of the size of `n / d`, as an exponent of
two: 52 places below the leading bit, and never below that of the least subnormal. -/
def lastBit (n d : Nat) : Int := max (magnitude n d - 52) (-1074)

/-- The bits of positive infinity, which are above those of all finite doubles. -/
def infinityBits : Nat := 0x7FF0000000000000

/-- **The bits of the double nearest to `n / d`.** -/
def nearestBits (n d : Nat) : Nat :=
  if n = 0 then 0
  else
    let q := lastBit n d
    let k := roundQuotient (n * Nat.pow 2 (-q).toNat) (d * Nat.pow 2 q.toNat)
    min (k + (q + 1074).toNat * Nat.pow 2 52) infinityBits

/-- The bits of the double nearest to `coefficient * 10 ^ exponent`. -/
def nearestDecimalBits (coefficient : Nat) (exponent : Int) : Nat :=
  nearestBits (coefficient * Nat.pow 10 exponent.toNat) (Nat.pow 10 (-exponent).toNat)

end Binary64

/-- **A decimal number**: `coefficient * 10 ^ exponent`. -/
structure Decimal where
  /-- The digits, read as one number. -/
  coefficient : Nat
  /-- How many places the point stands behind the last digit. -/
  exponent : Int
deriving DecidableEq, Repr

namespace Decimal

/-- The decimal with the given digits before and behind the point, times a power of
ten. -/
def ofDigits (whole fraction : Text) (exponent : Int) : Decimal where
  coefficient := Text.digitsValue (whole ++ fraction)
  exponent := exponent - fraction.length

/-- The bits of the nearest double. A power of ten too large to write out is not
written out: past `10 ^ 310` every positive number is infinite, and below half the
least subnormal every number is zero (a tenth is less than an eighth, which bounds
the binary size). -/
def bits (d : Decimal) : Nat :=
  if d.coefficient = 0 then 0
  -- from here on the value is at least `10 ^ exponent`
  else if 310 < d.exponent then Binary64.infinityBits
  else if (d.coefficient.log2 : Int) + 1 + 3 * min d.exponent 0 ≤ -1075 then 0
  else Binary64.nearestDecimalBits d.coefficient d.exponent

/-- **The nearest double**, ties to even. -/
def toFloat (d : Decimal) : Float := Float.ofBits (UInt64.ofNat d.bits)

end Decimal

end AssayRules
