import AssayRules.Text.Basic

/-!
# Colors

A rule marks cells in a color, written in hexadecimal with two digits for each channel
or, for short, with one that stands for both. A cell that several rules mark shows the
average of their colors.

A color that was entered wrongly is not lost: it takes no part in an average, but
stands as it was entered where it is alone, and when no color at all can be read the
least of the texts is taken, so that the order of the rules does not matter.
-/

namespace AssayRules

/-- **A color** by its three channels. -/
structure Rgb where
  red : UInt8
  green : UInt8
  blue : UInt8
deriving DecidableEq, Repr

namespace Rgb

/-- A channel of two hexadecimal digits. -/
def channel (high low : Nat) : UInt8 := UInt8.ofNat (16 * high + low)

/-- The color of three or six hexadecimal digits. -/
def ofDigits? : List Nat → Option Rgb
  | [r, g, b] => some ⟨channel r r, channel g g, channel b b⟩
  | [r, r', g, g', b, b'] => some ⟨channel r r', channel g g', channel b b'⟩
  | _ => none

/-- A text without the `#` it may begin with. -/
def withoutHash : Text → Text
  | [] => []
  | c :: rest => if c = Ascii.hash then rest else c :: rest

/-- **Reading a color**: three or six hexadecimal digits, blanks at the ends and a `#` in
front aside. -/
def ofText? (s : Text) : Option Rgb := do
  let digits ← (withoutHash s.trim).mapM Ascii.hexDigit?
  ofDigits? digits

/-- The hexadecimal digit of a number below sixteen, in small letters. -/
def hexByte (n : Nat) : UInt8 := UInt8.ofNat (if n < 10 then 0x30 + n else 0x57 + n)

/-- The two digits of a channel. -/
def channelText (v : UInt8) : Text := [hexByte (v.toNat / 16), hexByte (v.toNat % 16)]

/-- **How a color is written**: a `#` and six digits. -/
def text (c : Rgb) : Text :=
  Ascii.hash :: (channelText c.red ++ channelText c.green ++ channelText c.blue)

/-- The sum of the values of a channel, in a word of 64 bits. -/
def channelSum : List UInt8 → UInt64
  | [] => 0
  | v :: rest => v.toUInt64 + channelSum rest

/-- **The average of the values of a channel**, a half rounded up. The quotient is taken in
double precision, and of half a unit more the whole part is kept. -/
def averageChannel (values : List UInt8) : UInt8 :=
  ((channelSum values).toFloat / (UInt64.ofNat values.length).toFloat + 0.5).toUInt8

/-- **The average of colors**, channel by channel. -/
def average (colors : List Rgb) : Rgb where
  red := averageChannel (colors.map Rgb.red)
  green := averageChannel (colors.map Rgb.green)
  blue := averageChannel (colors.map Rgb.blue)

end Rgb

/-- The least of some texts, in the order of their bytes. -/
def leastText : Text → List Text → Text
  | least, [] => least
  | least, s :: rest => leastText (if s < least then s else least) rest

/-- **Blending**: the average of the colors that can be read. A single color is left as
it is written. -/
def blend : List Text → Text
  | [] => []
  | [color] => color
  | first :: rest =>
    match (first :: rest).filterMap Rgb.ofText? with
    | [] => leastText first rest
    | colors => (Rgb.average colors).text

end AssayRules
