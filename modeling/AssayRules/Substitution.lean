import AssayRules.Readings
import AssayRules.Reference
import AssayRules.Substitution.Occurrence
import AssayRules.Token.Lexer

/-!
# Replacing variables by their readings

An expression becomes tokens in three strokes.

1. Every bracketed reference is replaced by the reading of the name it writes.
2. Every recorded spelling, longest first, is looked for in the text that is left,
   first exactly and then up to letter case, and its occurrences are replaced. Text is
   searched **piece** by piece: a reading that has been put in is never searched again
   and never joined to the text around it.
3. What is left is read as tokens, and has to be free of names.

Going by recorded spellings, and not by the names that an expression seems to contain,
is what lets a name hold operators, digits or blanks: `Fe-57 / total` is one variable
if it is recorded and three things if it is not.

References without a reading and names that are left over are reported together, and
before anything else that may be wrong with the text.
-/

namespace AssayRules

/-- **A piece** of an expression under substitution. -/
inductive Piece where
  /-- Text in which names are still looked for. -/
  | text (s : Text)
  /-- A reading that has been put in. -/
  | value (x : Float)
deriving DecidableEq, Repr

namespace Piece

/-- Neighbouring pieces of text become one piece. -/
def mergeText : List Piece → List Piece
  | [] => []
  | value x :: rest => value x :: mergeText rest
  | text s :: rest =>
    match mergeText rest with
    | text t :: others => text (s ++ t) :: others
    | others => text s :: others

end Piece

/-! ### Bracketed references -/

/-- What becomes of a segment: its byte, or the reading of the reference. A reference
without a reading leaves nothing behind. -/
def Segment.piece? (readings : Readings) : Segment → Option Piece
  | .byte c => some (.text [c])
  | .reference inside => (readings.find? (Name.canonical inside)).map .value
  | .unclosed _ => none

/-- The pieces once all bracketed references have been replaced. -/
def referencePieces (readings : Readings) (parts : List Segment) : List Piece :=
  Piece.mergeText (parts.filterMap (Segment.piece? readings))

/-- The bracketed references without a reading, in order of appearance. -/
def missingReferences (readings : Readings) (parts : List Segment) : List Text :=
  (parts.filterMap Segment.name?).filter fun name => !readings.contains name

/-! ### Recorded spellings -/

/-- **The outcome of looking for one name** in a list of pieces. -/
structure Replacement where
  /-- The pieces, with a reading for each occurrence. -/
  pieces : List Piece
  /-- Whether the name occurred at all. -/
  found : Bool
deriving DecidableEq, Repr

namespace Replacement

/-- Nothing was searched. -/
def empty : Replacement := ⟨[], false⟩

/-- The outcomes for two lists of pieces that follow one another. -/
def append (first second : Replacement) : Replacement :=
  ⟨first.pieces ++ second.pieces, first.found || second.found⟩

end Replacement

/-- What becomes of a span: an occurrence is replaced and other text is kept. -/
def Span.piece (x : Float) : Span → Piece
  | .plain s => .text s
  | .hit _ => .value x

/-- One piece with a name replaced. Readings are not searched. -/
def Piece.replaceName (mode : Matching) (name : Text) (x : Float) : Piece → Replacement
  | .value y => ⟨[.value y], false⟩
  | .text s =>
    let spans := mode.spans name s
    ⟨mergeText (spans.map (Span.piece x)), spans.any Span.isHit⟩

/-- **Replacing a name** by a reading wherever it occurs in the text of the pieces. -/
def replaceName (mode : Matching) (name : Text) (x : Float) : List Piece → Replacement
  | [] => .empty
  | piece :: rest => (piece.replaceName mode name x).append (replaceName mode name x rest)

/-- A recorded spelling replaced by its reading: its exact occurrences, and then those
that differ in letter case. The empty spelling occurs nowhere. -/
def replaceEntry (pieces : List Piece) (entry : Text × Float) : List Piece :=
  if entry.1.isEmpty then pieces
  else
    -- a spelling that stands there letter for letter wins over one in another case
    let exactly := (replaceName .exact entry.1 entry.2 pieces).pieces
    (replaceName .folded entry.1 entry.2 exactly).pieces

/-- **All recorded spellings replaced**, longer ones before shorter ones. -/
def replaceEntries (readings : Readings) (pieces : List Piece) : List Piece :=
  readings.entriesLongestFirst.foldl replaceEntry pieces

/-! ### What is left -/

/-- The bare names in a piece. -/
def Piece.bareNames : Piece → List Text
  | .text s => Name.bareNames s
  | .value _ => []

/-- The tokens of a piece. -/
def Piece.tokens : Piece → Except Malformed (List Token)
  | .text s => (lex s).toExcept
  | .value x => .ok [.number x]

/-- The tokens of all pieces, unless one of them cannot be read. -/
def pieceTokens : List Piece → Except Malformed (List Token)
  | [] => .ok []
  | piece :: rest => do
    let front ← piece.tokens
    let others ← pieceTokens rest
    return front ++ others

/-- **Substitution**: the tokens of an expression with every variable replaced by its
reading, an end mark behind them. -/
def substitute (expression : Text) (readings : Readings) :
    Except ExpressionError (List Token) :=
  let parts := segments expression
  if parts.any Segment.isUnclosed then .error (.malformed .unclosedReference)
  else
    let pieces := replaceEntries readings (referencePieces readings parts)
    -- bracketed names come first, then those left over in the text
    let unresolved :=
      (missingReferences readings parts ++ pieces.flatMap Piece.bareNames).eraseDups
    if unresolved.isEmpty then
      match pieceTokens pieces with
      | .ok tokens => .ok (tokens ++ [.stop])
      | .error cause => .error (.malformed cause)
    else .error (.unresolved unresolved)

end AssayRules
