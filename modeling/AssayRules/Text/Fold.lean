import AssayRules.Text.Basic

/-!
# Case folding

Two spellings of a name are the same when they agree up to letter case. The
letters that have a case here are those of ASCII, Latin-1 and Latin Extended-A,
which covers the names laboratories write; the dotted and the dotless i of Turkish
both fold to a plain `i`, so that `İYOT` finds `iyot`.

Folding walks over **bytes**. A byte in `C0 … DF` followed by a continuation byte
is a code point of two bytes, which is folded as one and written back; every other
byte outside ASCII is passed through. All letters with a case lie in the two-byte
range, so nothing is lost by not decoding longer sequences, and bytes that are not
valid UTF-8 pass through unchanged.

`Text.characters` cuts a text into the chunks that a hit of a case-insensitive
search may begin and end at: as many bytes as the first of them announces.
-/

namespace AssayRules

/-- **Folding of a code point**: capitals of Latin-1 and Latin Extended-A to their
small letters, both Turkish variants of i to `i`, all else to itself. In Latin
Extended-A a capital and its small letter are neighbours; which of the two is the
even one changes from block to block. -/
def foldCodePoint (cp : Nat) : Nat :=
  -- Latin-1, in which `D7` is the multiplication sign
  if 0xC0 ≤ cp ∧ cp ≤ 0xDE ∧ cp ≠ 0xD7 then cp + 0x20
  else if cp = 0x130 ∨ cp = 0x131 then 0x69
  -- Latin Extended-A where the capital is even, and then where it is odd
  else if (0x100 ≤ cp ∧ cp ≤ 0x12F) ∨ (0x132 ≤ cp ∧ cp ≤ 0x137) ∨ (0x14A ≤ cp ∧ cp ≤ 0x177) then
    if cp % 2 = 0 then cp + 1 else cp
  else if (0x139 ≤ cp ∧ cp ≤ 0x148) ∨ (0x179 ≤ cp ∧ cp ≤ 0x17E) then
    if cp % 2 = 1 then cp + 1 else cp
  else if cp = 0x178 then 0xFF
  else cp

/-- The UTF-8 bytes of a code point of at most two bytes. -/
def encodeCodePoint (cp : Nat) : Text :=
  if cp < 0x80 then [UInt8.ofNat cp]
  else [UInt8.ofNat (0xC0 + cp / 0x40), UInt8.ofNat (0x80 + cp % 0x40)]

/-- The first byte of a code point of two bytes. -/
def isTwoByteLead (c : UInt8) : Bool := 0xC0 ≤ c && c ≤ 0xDF

/-- A byte that continues a code point. -/
def isContinuation (c : UInt8) : Bool := 0x80 ≤ c && c ≤ 0xBF

/-- The code point that a lead byte and a continuation byte write. -/
def decodeTwoBytes (lead next : UInt8) : Nat := lead.toNat % 0x20 * 0x40 + next.toNat % 0x40

namespace Text

/-- **Case folding**, from left to right: a code point of two bytes by
`foldCodePoint`, any other byte by the ASCII rule, under which a byte outside ASCII
is left alone. -/
def foldCase : Text → Text
  | [] => []
  | [c] => [Ascii.toLower c]
  | c :: d :: rest =>
    if isTwoByteLead c && isContinuation d then
      encodeCodePoint (foldCodePoint (decodeTwoBytes c d)) ++ foldCase rest
    else Ascii.toLower c :: foldCase (d :: rest)

/-- How many bytes a character has, by its first byte. Bytes that announce nothing
stand alone. -/
def characterLength (lead : UInt8) : Nat :=
  if 0xF0 ≤ lead ∧ lead ≤ 0xF7 then 4
  else if 0xE0 ≤ lead ∧ lead ≤ 0xEF then 3
  else if 0xC0 ≤ lead ∧ lead ≤ 0xDF then 2
  else 1

/-- **Characters**: the text cut after as many bytes as each first byte announces;
the last one may fall short. -/
def characters : Text → List Text
  | [] => []
  | c :: rest =>
    (c :: rest.take (characterLength c - 1)) :: characters (rest.drop (characterLength c - 1))
termination_by s => s.length
decreasing_by simp only [List.length_drop, List.length_cons]; omega

/-! ### First facts -/

@[simp] theorem foldCase_nil : foldCase [] = [] := rfl

@[simp] theorem characters_nil : characters [] = [] := by unfold characters; rfl

/-- Cutting into characters loses nothing. -/
@[simp] theorem flatten_characters (s : Text) : (characters s).flatten = s := by
  fun_induction characters s with
  | case1 => rfl
  | case2 c rest ih => simp [ih]

/-- No character is empty. -/
theorem ne_nil_of_mem_characters {s u : Text} (h : u ∈ characters s) : u ≠ [] := by
  fun_induction characters s with
  | case1 => simp at h
  | case2 c rest ih =>
    rcases List.mem_cons.1 h with rfl | h
    · simp
    · exact ih h

end Text

end AssayRules
