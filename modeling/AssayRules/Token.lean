import AssayRules.Text.Basic

/-!
# Tokens of arithmetic

An expression whose variables have been replaced by their readings is a list of
**tokens**: numbers, the four operators, parentheses, and a mark that ends it. The
two signs are tokens as well: a `-` that stands where an operand is due is a sign and
not a subtraction, and once that is settled it is `Token.negative`.
-/

namespace AssayRules

/-- **The four operations** of arithmetic. -/
inductive Operation where
  | add
  | subtract
  | multiply
  | divide
deriving DecidableEq, Repr

namespace Operation

/-- The value of an operation on its left and its right operand, in IEEE double
precision. Division by zero has a value like any other; whether a value is finite is
asked of whole expressions only. -/
def eval : Operation → Float → Float → Float
  | add, a, b => a + b
  | subtract, a, b => a - b
  | multiply, a, b => a * b
  | divide, a, b => a / b

/-- Whether the operation adds: sums and differences, as against products and
quotients. -/
def isAdditive : Operation → Bool
  | add | subtract => true
  | multiply | divide => false

end Operation

/-- **A token.** -/
inductive Token where
  /-- A number: a literal of the expression, or the reading of a variable. -/
  | number (value : Float)
  /-- One of `+`, `-`, `*`, `/`, which may still turn out to be a sign. -/
  | operator (operation : Operation)
  /-- `(` -/
  | leftParen
  /-- `)` -/
  | rightParen
  /-- A `-` known to be a sign. -/
  | negative
  /-- A `+` known to be a sign. -/
  | positive
  /-- The end of the expression. -/
  | stop
deriving DecidableEq, Repr

namespace Token

/-- The token that a single byte writes, if it is one. -/
def ofByte? (c : UInt8) : Option Token :=
  if c = Ascii.plus then some (operator .add)
  else if c = Ascii.minus then some (operator .subtract)
  else if c = Ascii.star then some (operator .multiply)
  else if c = Ascii.slash then some (operator .divide)
  else if c = Ascii.leftParen then some leftParen
  else if c = Ascii.rightParen then some rightParen
  else none

end Token

end AssayRules
