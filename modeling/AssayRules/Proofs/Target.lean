import AssayRules.Proofs.Canonical
import AssayRules.Proofs.Numeric
import AssayRules.Proofs.Validation

/-!
# One variable on the left

A rule that marks one variable has that variable on the left side of its formula and nothing else.
Whether it has is told from the text: the side has the canonical spelling of its one variable, or
it is one bracket (`isReferenceTo_iff`). What is evaluated later is not that text but what
substitution makes of it, and there is room between the two: a side of brackets might have a
canonical spelling that is a name, commas might stand behind the name, and a recorded name might be
found within it.

There is none of that in a side of a valid formula. A name in a bracket is shorter than the side
(`leftBracket_notMem_of_references`). A bare name is replaced in front of what stands behind it, so
that this has no tokens of its own (`Readings.exists_shards_ones`), and what has none is blank
(`isSpace_of_lex_nil`). And as there is no symbol in a bare name, all of its tokens are numbers, of
which an expression cannot have two (`IsExpression.eq_number`).
-/

namespace AssayRules

open Shard

variable {s t left : Text} {available : List Text} {readings : Readings} {ts : List Token}

/-! ### What is asked of a formula -/

end AssayRules
