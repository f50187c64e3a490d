import AssayRules.Decimal
import AssayRules.Table

/-!
# Numbers in cells

Laboratories enter numbers as text as often as not. A text is a number when, blanks at
its ends aside, it is a decimal number with an optional sign, a whole number in
hexadecimal, octal or binary notation without one, or an infinity; a blank text is
zero as a number, but no reading. Everything else is no number.

The decimal form is told by its parts. The first `e` or `E` divides the exponent from
the rest, and the first point divides the rest; each part must then be made of digits,
and some digits must stand before or behind the point.
-/

namespace AssayRules

namespace CellNumber

/-- Positive infinity. -/
def infinity : Float := Float.ofBits 0x7FF0000000000000

/-- **A whole number in the notation of a radix**, digit by digit in double precision, so
that a long one is rounded as it grows. At least one digit is needed. -/
def radix? (base : Nat) (digits : Text) : Option Float :=
  if digits.isEmpty then none
  else
    digits.foldl (fun sum c => do
      let value ← sum
      let digit ← Ascii.hexDigit? c
      if digit < base then some (value * Float.ofNat base + Float.ofNat digit) else none)
      (some 0.0)

/-- The radix that the letter behind a leading zero announces. -/
def base? (letter : UInt8) : Option Nat :=
  if letter = 0x78 ∨ letter = 0x58 then some 16
  else if letter = 0x6F ∨ letter = 0x4F then some 8
  else if letter = 0x62 ∨ letter = 0x42 then some 2
  else none

/-- Whether a text is made of decimal digits alone. -/
def allDigits (s : Text) : Bool := s.all Ascii.isDigit

/-- The text before the first byte that satisfies `p`, and the text behind that byte if
there is one. -/
def divide (p : UInt8 → Bool) (s : Text) : Text × Option Text :=
  (s.takeWhile (!p ·), (s.dropWhile (!p ·)).tail?)

/-- The value of an exponent: an optional sign and at least one digit. -/
def exponent? (s : Text) : Option Int :=
  let (negative, digits) := Text.sign s
  if digits.isEmpty || !allDigits digits then none
  else some (Text.signedValue negative digits)

/-- **A decimal number without a sign**, told by its parts. -/
def unsigned? (s : Text) : Option Decimal := do
  let (mantissa, power) := divide (fun c => c == 0x65 || c == 0x45) s
  let (whole, fraction) := divide (· == Ascii.dot) mantissa
  let part := fraction.getD []
  if !(allDigits whole && allDigits part) || (whole.isEmpty && part.isEmpty) then none
  else
    let exponent ← power.elim (some 0) exponent?
    return .ofDigits whole part exponent

/-- A decimal number with an optional sign. A minus changes the sign of zero, too. -/
def decimal? (s : Text) : Option Float :=
  let (negative, digits) := Text.sign s
  (unsigned? digits).map fun d => if negative then -d.toFloat else d.toFloat

/-- A number in the notation of another radix, if a text begins like one: a zero, the
letter of a radix, and something behind it. -/
def otherRadix? : Text → Option (Nat × Text)
  | zero :: letter :: c :: rest =>
    if zero = Ascii.zero then (base? letter).map fun base => (base, c :: rest) else none
  | _ => none

/-- **The number that a text writes**, if it writes one. -/
def ofText? (s : Text) : Option Float :=
  let t := s.trim
  if t.isEmpty then some 0.0
  else if t = utf8 "Infinity" ∨ t = utf8 "+Infinity" then some infinity
  else if t = utf8 "-Infinity" then some (-infinity)
  else
    match otherRadix? t with
    | some (base, digits) => radix? base digits
    | none => decimal? t

end CellNumber

/-- **The reading of a cell**: its number, or the number that its text writes. A cell
that is empty, blank or no number has none. -/
def Cell.reading? : Cell → Option Float
  | .empty => none
  | .number value => if value.isNaN then none else some value
  | .text s =>
    if s.trim.isEmpty then none
    else CellNumber.ofText? s

end AssayRules
