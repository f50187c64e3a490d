import AssayRules.Comparison
import AssayRules.Evaluation

/-!
# Formulas

A formula compares two expressions: `[Total Iron] * 2 >= Fe + 0.5`. It is read by
cutting its text at the comparisons outside references (`Chain`), asking for exactly
one, outside all parentheses, with a text on either side, and then checking that both
sides are arithmetic over the variables they refer to.

Comparisons are cut out by longest match, so `>=` is one and `> =` is a `>` with a
stray `=` behind it. What is asked of the chain is asked in a fixed order, which
decides what is reported about a text with several faults: a fault in the cutting
first, in the order of the text; then the number of comparisons, parentheses, and
blank sides; then the left expression, and then the right one.
-/

namespace AssayRules

/-! ### Cutting at comparisons -/

/-- **A comparison met in a text**: which one, how many parentheses are open there, and
the text from there to the next comparison. -/
structure Link where
  comparison : Comparison
  /-- Parentheses opened before the comparison, less those closed. -/
  depth : Int
  /-- The text behind the comparison. -/
  behind : Text
deriving DecidableEq, Repr

/-- **A text cut at its comparisons.** -/
structure Chain where
  /-- The text before the first comparison. -/
  front : Text
  /-- The comparisons in order, each with the text behind it. -/
  links : List Link
deriving DecidableEq, Repr

namespace Chain

/-- A text without comparisons. -/
def ofText (s : Text) : Chain := ⟨s, []⟩

/-- More text in front. -/
def prepend (s : Text) (chain : Chain) : Chain := { chain with front := s ++ chain.front }

/-- A comparison in front, with nothing before it. -/
def compare (comparison : Comparison) (depth : Int) (chain : Chain) : Chain :=
  ⟨[], ⟨comparison, depth, chain.front⟩ :: chain.links⟩

end Chain

/-- How many parentheses a byte opens. -/
def parenStep (c : UInt8) : Int :=
  if c = Ascii.leftParen then 1 else if c = Ascii.rightParen then -1 else 0

/-- Whether a byte stands in a formula only as a part of a comparison of two bytes. -/
def isStray (c : UInt8) : Bool := c == Ascii.equals || c == Ascii.exclamation

/-- What one byte that begins no comparison of two bytes contributes: a comparison of
one byte, a fault, or itself. -/
def cutByte (c : UInt8) (depth : Int) (rest : Int → Except Malformed Chain) :
    Except Malformed Chain :=
  match Comparison.ofText? [c] with
  | some comparison => (rest depth).map (Chain.compare comparison depth)
  | none =>
    if isStray c then .error (.stray c)
    else (rest (depth + parenStep c)).map (Chain.prepend [c])

/-- **Cutting at comparisons**, with `depth` parentheses open. References are passed
over whole. -/
def cut : List Segment → Int → Except Malformed Chain
  | [], _ => .ok (.ofText [])
  | .unclosed _ :: _, _ => .error .unclosedReferenceInRule
  | .reference inside :: rest, depth =>
    (cut rest depth).map (Chain.prepend (Segment.reference inside).text)
  -- the longest match first: a comparison of two bytes, and else what one byte is
  | .byte c :: .byte d :: rest, depth =>
    match Comparison.ofText? [c, d] with
    | some comparison => (cut rest depth).map (Chain.compare comparison depth)
    | none => cutByte c depth (cut (.byte d :: rest))
  | .byte c :: rest, depth => cutByte c depth (cut rest)

/-! ### Formulas -/

/-- **A formula**: two expressions and how they compare, with the variables of each. -/
structure Formula where
  left : Text
  comparison : Comparison
  right : Text
  leftVariables : List Text
  rightVariables : List Text
deriving DecidableEq, Repr

namespace Formula

/-- **The variables of a formula**: those of the left side, and then those that only the
right side has. -/
def variableNames (formula : Formula) : List Text :=
  formula.leftVariables
    ++ formula.rightVariables.filter fun name => !formula.leftVariables.contains name

/-- Two expressions as a formula, once both are found to be arithmetic over their own
variables. -/
def ofSides (left : Text) (comparison : Comparison) (right : Text) :
    Except Malformed Formula := do
  let leftVariables ← references left
  let rightVariables ← references right
  -- both sides have their variables before either is checked
  checkArithmetic left leftVariables
  checkArithmetic right rightVariables
  return { left, comparison, right, leftVariables, rightVariables }

/-- **Reading a formula.** -/
def parse (s : Text) : Except Malformed Formula := do
  let chain ← cut (segments s) 0
  match chain.links with
  | [] => .error .comparisonMissing
  | [link] =>
    let left := chain.front.trim
    let right := link.behind.trim
    if link.depth ≠ 0 then .error .comparisonInParens
    else if left.isEmpty || right.isEmpty then .error .sideMissing
    else ofSides left link.comparison right
  | _ => .error .comparisonRepeated

/-- The text of a formula: its sides with the comparison between them. -/
def text (formula : Formula) : Text :=
  formula.left ++ [Ascii.space] ++ formula.comparison.text ++ [Ascii.space] ++ formula.right

end Formula

end AssayRules
