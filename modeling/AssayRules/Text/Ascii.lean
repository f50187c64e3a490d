/-!
# Bytes and the ASCII classes

Rule texts, variable names and table cells are kept as **bytes**. Everything the
rule language gives a meaning to (digits, letters, blanks, operators, brackets)
is an ASCII byte, and every byte from `0x80` on is taken to be part of a name, so
that no decoding stands between a text and its reading, and a text that is not
valid UTF-8 is read like any other.

This file fixes the bytes the rule language names and the classes it sorts bytes
into. A class is a `Bool`-valued predicate, so that it can be handed to
`takeWhile`, `dropWhile` and `span`, and decided on a concrete byte.
-/

namespace AssayRules

/-- **Text**: the bytes of a rule, a name or a cell, in order. -/
abbrev Text := List UInt8

/-- Texts are found equal if they are. All that looks for a text in a list goes by this. -/
instance : LawfulBEq Text := inferInstance

/-- The UTF-8 bytes of a fixed wording. -/
def utf8 (s : String) : Text := s.toUTF8.data.toList

/-- Different wordings have different bytes. -/
theorem utf8_injective {s t : String} (h : utf8 s = utf8 t) : s = t :=
  String.toByteArray_inj.1 (ByteArray.ext (Array.toList_inj.1 h))

namespace Ascii

/-! ### The bytes the rule language names -/

/-- The byte `NUL`, which ends a message when it is reported. -/
abbrev nul : UInt8 := 0x00
/-- The horizontal tab. -/
abbrev tab : UInt8 := 0x09
/-- The blank. -/
abbrev space : UInt8 := 0x20
/-- The byte `!`. -/
abbrev exclamation : UInt8 := 0x21
/-- The byte `#`, which may open a color. -/
abbrev hash : UInt8 := 0x23
/-- The byte `(`. -/
abbrev leftParen : UInt8 := 0x28
/-- The byte `)`. -/
abbrev rightParen : UInt8 := 0x29
/-- The byte `*`. -/
abbrev star : UInt8 := 0x2A
/-- The byte `+`. -/
abbrev plus : UInt8 := 0x2B
/-- The byte `,`, which may trail a name. -/
abbrev comma : UInt8 := 0x2C
/-- The byte `-`. -/
abbrev minus : UInt8 := 0x2D
/-- The byte `.`. -/
abbrev dot : UInt8 := 0x2E
/-- The byte `/`. -/
abbrev slash : UInt8 := 0x2F
/-- The digit zero. -/
abbrev zero : UInt8 := 0x30
/-- The byte `<`. -/
abbrev less : UInt8 := 0x3C
/-- The byte `=`. -/
abbrev equals : UInt8 := 0x3D
/-- The byte `>`. -/
abbrev greater : UInt8 := 0x3E
/-- The byte `[`, which opens a bracketed reference. -/
abbrev leftBracket : UInt8 := 0x5B
/-- The byte `]`, which closes a bracketed reference. -/
abbrev rightBracket : UInt8 := 0x5D
/-- The byte `_`, which counts as a letter in names. -/
abbrev underscore : UInt8 := 0x5F

/-! ### Classes -/

/-- Blanks: the space and the five controls from tab to carriage return. -/
def isSpace (c : UInt8) : Bool := c == 0x20 || (0x09 ≤ c && c ≤ 0x0D)

/-- Decimal digits. -/
def isDigit (c : UInt8) : Bool := 0x30 ≤ c && c ≤ 0x39

/-- Capital letters of ASCII. -/
def isUpper (c : UInt8) : Bool := 0x41 ≤ c && c ≤ 0x5A

/-- Small letters of ASCII. -/
def isLower (c : UInt8) : Bool := 0x61 ≤ c && c ≤ 0x7A

/-- Letters of ASCII. -/
def isAlpha (c : UInt8) : Bool := isUpper c || isLower c

/-- Letters and digits of ASCII. -/
def isAlphanum (c : UInt8) : Bool := isAlpha c || isDigit c

/-- A **name start**: a byte a bare name may begin with. A byte outside ASCII is
part of some letter, as far as names are concerned. -/
def isNameStart (c : UInt8) : Bool := isAlpha c || c == underscore || 0x80 ≤ c

/-- A **word byte**: a byte a word is made of. Two words never stand side by side
without a byte between them that is not a word byte. -/
def isWord (c : UInt8) : Bool := isNameStart c || isDigit c

/-- The small letter of an ASCII capital; any other byte as it is. -/
def toLower (c : UInt8) : UInt8 := if isUpper c then c + 0x20 else c

/-- The number a decimal digit stands for. -/
def digitValue (c : UInt8) : Nat := c.toNat - 0x30

/-- The number a hexadecimal digit stands for, in either letter case. -/
def hexDigit? (c : UInt8) : Option Nat :=
  if isDigit c then some (c.toNat - 0x30)
  else if 0x61 ≤ c && c ≤ 0x66 then some (c.toNat - 0x61 + 10)
  else if 0x41 ≤ c && c ≤ 0x46 then some (c.toNat - 0x41 + 10)
  else none

/-- A byte that may begin a name may stand anywhere in a word. -/
theorem isWord_of_isNameStart {c : UInt8} (h : isNameStart c = true) : isWord c = true := by
  simp [isWord, h]

theorem isWord_of_isDigit {c : UInt8} (h : isDigit c = true) : isWord c = true := by
  simp [isWord, h]

end Ascii

end AssayRules
