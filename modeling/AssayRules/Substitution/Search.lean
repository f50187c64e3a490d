import AssayRules.Substitution.Occurrence

/-!
# Searching by places

`Matching.spans` goes through a text glyph by glyph and takes off what it finds. The same
occurrences can be told by their **places** in the text, one at a time: `Matching.find?` is the
next one that begins at a given place or behind it.

Up to letter case the search is over the folded text, in which the places are others than in the
text itself, as folding may shorten a character. A `FoldedText` therefore carries, for each of its
bytes, the place in the text at which the character begins that the byte begins, and for the
bytes inside a character none. What is found in the folded text is an occurrence only if it begins
and ends where a character does.
-/

namespace AssayRules

namespace Text

/-- **The places at which `part` stands** in a text, from `first` on, in ascending order. -/
def places (s part : Text) (first : Nat) : List Nat :=
  (List.range' first (s.length + 1 - first)).filter fun place => part.isPrefixOf (s.drop place)

/-- The part of a text between two places. -/
def between (s : Text) (start stop : Nat) : Text := (s.drop start).take (stop - start)

/-- Whether a name stands alone between two places of a text. -/
def isAloneAt (s name : Text) (start stop : Nat) : Bool :=
  standsAlone name (s.take start).getLast? (s.drop stop).head?

end Text

/-- **The origins** of the key bytes of glyphs, of which the first stands at `place`: where its
glyph stands for the first byte of a key, and nothing for the others. -/
def Glyph.origins : Nat → List Glyph → List (Option Nat)
  | _, [] => []
  | place, glyph :: rest =>
    some place
      :: (List.replicate (glyph.key.length - 1) none
        ++ origins (place + glyph.text.length) rest)

/-- **A folded text** that remembers where its bytes come from. -/
structure FoldedText where
  text : Text
  /-- An origin for each byte, and one more for the end of the text. -/
  origins : List (Option Nat)
deriving DecidableEq, Repr

namespace FoldedText

/-- A text is folded character by character. -/
def ofText (s : Text) : FoldedText :=
  let glyphs := Matching.folded.glyphs s
  ⟨glyphs.flatMap Glyph.key, Glyph.origins 0 glyphs ++ [some s.length]⟩

/-- Where the text stands of which `length` bytes from `place` on are the folding, if both ends
have an origin. -/
def range? (folded : FoldedText) (place length : Nat) : Option (Nat × Nat) :=
  match folded.origins[place]?, folded.origins[place + length]? with
  | some (some start), some (some stop) => some (start, stop)
  | _, _ => none

end FoldedText

namespace Matching

/-- **The next occurrence** of a name that begins at `first` or behind it: where it begins, and
where it ends. -/
def find? (mode : Matching) (name s : Text) (first : Nat) : Option (Nat × Nat) :=
  match mode with
  | exact =>
    (s.places name first).findSome? fun place =>
      let stop := place + name.length
      if s.isAloneAt name place stop then some (place, stop) else none
  | folded =>
    let folded := FoldedText.ofText s
    let key := name.foldCase
    -- the folded text has other places, so all of it is searched
    (folded.text.places key 0).findSome? fun place =>
      (folded.range? place key.length).filter fun (start, stop) =>
        first ≤ start && s.isAloneAt name start stop

end Matching

end AssayRules
