import AssayRules.Text.Basic

/-!
# What can be wrong with an expression

Reading and evaluating an expression fails for one of three reasons, and callers
tell them apart: the text is **malformed**, a variable is **unresolved**, or the
value is **not finite**. A malformed text has a cause of its own, one constructor
per rule of the language that can be broken; the wording is in one function, and
nothing else in the library looks at wording.

A message is reported up to its first `NUL` (`Text.upToNul`): a text under
diagnosis may hold one, and what follows it does not reach the reader. The names
that an unresolved variable carries along are kept whole.
-/

namespace AssayRules

/-- **A malformed expression or rule**: the rule of the language that it breaks. -/
inductive Malformed where
  /-- An expression has a `[` that no `]` follows. -/
  | unclosedReference
  /-- A rule has a `[` that no `]` follows. -/
  | unclosedReferenceInRule
  /-- A number has no digit. -/
  | digitsMissing
  /-- A letter, digit or point stands directly behind a number; `near` ends with it. -/
  | numberRunsOn (near : Text)
  /-- A byte that begins no number and is no operator. -/
  | unexpected (byte : UInt8)
  /-- Two operands stand side by side. -/
  | operatorMissing
  /-- A parenthesis opens behind an operand. -/
  | operatorMissingBeforeParen
  /-- A parenthesis closes where an operand is due. -/
  | operandMissingBeforeParen
  /-- A parenthesis closes that was never opened. -/
  | parenNotOpened
  /-- A parenthesis is never closed. -/
  | parenNotClosed
  /-- A binary operator stands where an operand is due. -/
  | leftOperandMissing
  /-- There is no operand at all. -/
  | empty
  /-- The last operator has no right operand. -/
  | rightOperandMissing
  /-- An instruction finds too few values on the stack. -/
  | stackUnderflow
  /-- A program leaves no value, or more than one. -/
  | notOneValue
  /-- A `=` or `!` that is no part of a comparison. -/
  | stray (byte : UInt8)
  /-- A rule compares nothing. -/
  | comparisonMissing
  /-- A rule has more than one comparison. -/
  | comparisonRepeated
  /-- The comparison of a rule stands inside parentheses. -/
  | comparisonInParens
  /-- One side of the comparison is blank. -/
  | sideMissing
  /-- A side has names that are not among those it was read with. -/
  | unknownNames (names : List Text)
deriving DecidableEq, Repr

/-- **Failure of reading or evaluating an expression.** -/
inductive ExpressionError where
  /-- The text breaks a rule of the language. -/
  | malformed (cause : Malformed)
  /-- Variables without a reading, in order of appearance, each once. -/
  | unresolved (names : List Text)
  /-- The value of the expression is infinite or not a number. -/
  | notFinite (expression : Text)
deriving DecidableEq, Repr

/-- The wording for variables without a reading. -/
def unresolvedWording (names : List Text) : Text :=
  utf8 "Unresolved variables: " ++ Text.commaList names

namespace Malformed

/-- The wording of a cause, in full. -/
def wording : Malformed → Text
  | unclosedReference => utf8 "Unterminated '[' in expression"
  | unclosedReferenceInRule => utf8 "Unterminated '[' in formula"
  | digitsMissing => utf8 "Invalid number"
  | numberRunsOn near => utf8 "Invalid number near '" ++ near ++ utf8 "'"
  | unexpected byte => utf8 "Unexpected character: '" ++ [byte] ++ utf8 "'"
  | operatorMissing => utf8 "Missing operator between operands"
  | operatorMissingBeforeParen => utf8 "Missing operator before '('"
  | operandMissingBeforeParen => utf8 "Expected operand before ')'"
  | parenNotOpened => utf8 "Mismatched ')'"
  | parenNotClosed => utf8 "Mismatched '('"
  | leftOperandMissing => utf8 "Operator is missing its left operand"
  | empty => utf8 "Empty expression"
  | rightOperandMissing => utf8 "Expression ends with an operator"
  | stackUnderflow => utf8 "Stack underflow (bad expression)"
  | notOneValue => utf8 "Expression did not reduce to a single value"
  | stray byte => utf8 "Stray '" ++ [byte] ++ utf8 "' in formula"
  | comparisonMissing => utf8 "Formula has no comparison operator"
  | comparisonRepeated => utf8 "Formula must contain exactly one comparison operator"
  | comparisonInParens => utf8 "Comparison operator inside parentheses"
  | sideMissing => utf8 "Comparison is missing an operand"
  | unknownNames names => unresolvedWording names

/-- **The message** of a malformed text, as it is reported. -/
def message (cause : Malformed) : Text := cause.wording.upToNul

end Malformed

namespace ExpressionError

/-- **The message** of a failure, as it is reported. -/
def message : ExpressionError → Text
  | malformed cause => cause.message
  | unresolved names => (unresolvedWording names).upToNul
  | notFinite expression =>
    (utf8 "Expression did not evaluate to a finite number: " ++ expression).upToNul

end ExpressionError

/-! ### Steps that may fail -/

section

variable {ε α β : Type} {x : Except ε α} {b : β}

/-- Two steps end well if the first does, and then the second does with what the first gave. -/
theorem bind_eq_ok_iff {f : α → Except ε β} : x >>= f = .ok b ↔ ∃ a, x = .ok a ∧ f a = .ok b := by
  cases x with
  | error cause =>
    constructor
    · intro h
      cases h
    · rintro ⟨_, h, _⟩
      cases h
  | ok a =>
    constructor
    · intro h
      exact ⟨a, rfl, h⟩
    · rintro ⟨_, heq, h⟩
      cases heq
      exact h

theorem map_eq_ok_iff {f : α → β} : x.map f = .ok b ↔ ∃ a, x = .ok a ∧ f a = b := by
  cases x with
  | error cause =>
    constructor
    · intro h
      cases h
    · rintro ⟨_, h, _⟩
      cases h
  | ok a =>
    constructor
    · intro h
      exact ⟨a, rfl, Except.ok.inj h⟩
    · rintro ⟨_, heq, rfl⟩
      cases heq
      rfl

/-- Where values can be compared, it can be computed whether a step ends well with one. -/
theorem toOption_eq_some_iff {a : α} : x.toOption = some a ↔ x = .ok a := by
  cases x with
  | error cause => exact iff_of_false (by rintro ⟨⟩) (by rintro ⟨⟩)
  | ok a' => exact ⟨fun h => congrArg _ (Option.some.inj h), fun h => congrArg _ (Except.ok.inj h)⟩

end

end AssayRules
