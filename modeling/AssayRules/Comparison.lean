import AssayRules.Text.Basic

/-!
# Comparisons

A rule holds when its two sides compare as it says. Numbers in a table come from
arithmetic on measurements, so that equality is **up to a tolerance**: two numbers are
equal when they are closer than the tolerance, and different when they are not. No
comparison holds with a value that is not a number.
-/

namespace AssayRules

/-- **A comparison** of two numbers. -/
inductive Comparison where
  | greater
  | less
  | atLeast
  | atMost
  | equal
  | notEqual
deriving DecidableEq, Repr

namespace Comparison

/-- All comparisons. -/
def all : List Comparison := [greater, less, atLeast, atMost, equal, notEqual]

/-- How a comparison is written. -/
def text : Comparison → Text
  | greater => [Ascii.greater]
  | less => [Ascii.less]
  | atLeast => [Ascii.greater, Ascii.equals]
  | atMost => [Ascii.less, Ascii.equals]
  | equal => [Ascii.equals, Ascii.equals]
  | notEqual => [Ascii.exclamation, Ascii.equals]

/-- The comparison that a text writes, if it writes one and nothing else. -/
def ofText? (s : Text) : Option Comparison := all.find? fun comparison => comparison.text == s

/-- The tolerance of equality unless settings say otherwise. -/
def defaultTolerance : Float := 1e-10

/-- **Whether a comparison holds** between a left and a right number. -/
def holds (comparison : Comparison) (left right tolerance : Float) : Bool :=
  if left.isNaN || right.isNaN then false
  else
    match comparison with
    | greater => right < left
    | less => left < right
    | atLeast => right ≤ left
    | atMost => left ≤ right
    | equal => (left - right).abs < tolerance
    | notEqual => tolerance ≤ (left - right).abs

/-- A comparison reads back as what was written. -/
@[simp] theorem ofText?_text (comparison : Comparison) :
    ofText? comparison.text = some comparison := by
  cases comparison <;> rfl

end Comparison

end AssayRules
