import AssayRules.Program.OfTokens
import AssayRules.Substitution

/-!
# Evaluating expressions

An expression is evaluated by substituting the readings of its variables, arranging
the tokens as a program, and running it. The value has to be a finite number: a
quotient by zero, or a reading that is not finite, is a failure of its own kind, as
the text is in order and another table may do better.

Whether a text is arithmetic at all is asked before there are readings
(`checkArithmetic`), by giving every name it may use the reading one.
-/

namespace AssayRules

/-- The value of tokens: they are arranged as a program, which is run. -/
def evaluateTokens (mode : Precedence) (tokens : List Token) : Except Malformed Float := do
  let program ← Program.ofTokens mode tokens
  program.run

/-- **The value of an expression** over readings. -/
def evaluate (expression : Text) (readings : Readings) (mode : Precedence) :
    Except ExpressionError Float :=
  match substitute expression readings with
  | .error failure => .error failure
  | .ok tokens =>
    match evaluateTokens mode tokens with
    | .error cause => .error (.malformed cause)
    | .ok value => if value.isFinite then .ok value else .error (.notFinite expression)

/-- Readings in which each of the names has the value one. -/
def Readings.ones (names : List Text) : Readings := .ofList (names.map fun name => (name, 1.0))

/-- **Whether an expression is arithmetic over the given names.** Other names that it
uses are a fault of the text, as nothing will ever be recorded for them. -/
def checkArithmetic (expression : Text) (names : List Text) : Except Malformed Unit :=
  match substitute expression (.ones names) with
  | .ok tokens => (Program.ofTokens .standard tokens).map fun _ => ()
  | .error (.malformed cause) => .error cause
  | .error (.unresolved missing) => .error (.unknownNames missing)
  | .error (.notFinite _) => .ok ()

end AssayRules
