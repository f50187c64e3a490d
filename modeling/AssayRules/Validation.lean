import AssayRules.Formula

/-!
# Validating a formula while it is written

Before a rule is kept, its formula is tried against the variables that a table will
have. It has to be a formula, to refer to available variables only, and to be
arithmetic once these are replaced, for which every reading is taken to be one. That a
side is then not finite says nothing against it: `1 / (x - 1)` is fine for other `x`.

Where a rule is to mark one variable, its left side must be that variable and nothing
else, and its right side must not have the variable (`validateTarget`).
-/

namespace AssayRules

/-- **What is wrong with a formula** that is being written. -/
inductive Problem where
  /-- It is no formula. -/
  | malformed (cause : Malformed)
  /-- It refers to variables that are not available. -/
  | unknownVariables (names : List Text)
  /-- A side cannot be evaluated. -/
  | side (failure : ExpressionError)
  /-- The left side has no variable, or more than one. -/
  | targetCount (found : Nat)
  /-- The left side does more than name a variable. -/
  | targetArithmetic (left : Text)
  /-- The variable to mark appears on the right as well. -/
  | targetRepeated (target : Text)
deriving DecidableEq, Repr

/-- **The message** of a problem. What stems from reading or evaluating is worded there. -/
def Problem.message : Problem → Text
  | malformed cause => cause.message
  | unknownVariables names => utf8 "Unknown variables: " ++ Text.commaList names
  | side failure => failure.message
  | targetCount found =>
    utf8 "Left side must reference exactly one variable, found " ++ utf8 (toString found)
  | targetArithmetic left =>
    utf8 "Left side must be a single variable without arithmetic: " ++ left
  | targetRepeated target =>
    utf8 "Variable '" ++ target ++ utf8 "' appears on both sides of the comparison"

/-- **The verdict on a formula.** The variables of its sides are known as soon as it is a
formula, whatever else is wrong with it. -/
structure Verdict where
  /-- What is wrong, unless all is well. -/
  problem? : Option Problem := none
  leftVariables : List Text := []
  rightVariables : List Text := []
  /-- The variable to mark, where one was asked for and found. -/
  target? : Option Text := none
deriving DecidableEq, Repr

namespace Verdict

/-- Whether the formula may be kept. -/
def valid (verdict : Verdict) : Bool := verdict.problem?.isNone

/-- The message of what is wrong; empty if nothing is. -/
def message (verdict : Verdict) : Text := (verdict.problem?.map Problem.message).getD []

/-- The variables that are not available. -/
def missing (verdict : Verdict) : List Text :=
  match verdict.problem? with
  | some (.unknownVariables names) => names
  | _ => []

end Verdict

/-- Trial readings: one for every available variable, under its canonical name. -/
def trialReadings (available : List Text) : Readings :=
  .ones ((available.map Name.canonical).filter fun name => !name.isEmpty)

/-- What is wrong with a side under trial readings. Not being finite is not. -/
def sideProblem? (readings : Readings) (side : Text) : Option Problem :=
  match evaluate side readings .standard with
  | .ok _ => none
  | .error (.notFinite _) => none
  | .error failure => some (.side failure)

/-- What is wrong with a formula, given the variables that are available. Variables that
are not available come first, and then the left side before the right one. -/
def Formula.problem? (formula : Formula) (available : List Text) : Option Problem :=
  let readings := trialReadings available
  let missing := formula.variableNames.filter fun name => !readings.contains name
  if missing.isEmpty then
    (sideProblem? readings formula.left).or (sideProblem? readings formula.right)
  else some (.unknownVariables missing)

/-- The verdict on a text that is a formula. -/
def Formula.verdict (formula : Formula) (available : List Text) : Verdict where
  problem? := formula.problem? available
  leftVariables := formula.leftVariables
  rightVariables := formula.rightVariables

/-- The verdict on a text that is no formula. -/
def Malformed.verdict (cause : Malformed) : Verdict where
  problem? := some (.malformed cause)

/-- **Validating a formula** against the variables that are available. -/
def validate (s : Text) (available : List Text) : Verdict :=
  match Formula.parse s with
  | .error cause => cause.verdict
  | .ok formula => formula.verdict available

/-! ### One variable to mark -/

/-- Whether an expression is one bracketed reference to a variable and nothing else. -/
def isReferenceTo (target : Text) : Text → Bool
  | [] => false
  | c :: rest =>
    c == Ascii.leftBracket &&
      match Text.splitAt? Ascii.rightBracket rest with
      | some (inside, []) => Name.canonical inside == target
      | _ => false

/-- **Whether an expression names a variable and nothing else**, bare or bracketed. -/
def namesOnly (target left : Text) : Bool :=
  Name.canonical left == target || isReferenceTo target left

/-- **The variable to mark**, if the sides of a formula allow one: the only variable on
the left, which is all that stands there, and which the right does not have in any letter
case. -/
def Formula.target (formula : Formula) : Except Problem Text :=
  match formula.leftVariables with
  | [name] =>
    if !namesOnly name formula.left then .error (.targetArithmetic formula.left)
    else if formula.rightVariables.any fun other => other.foldCase == name.foldCase then
      .error (.targetRepeated name)
    else .ok name
  | names => .error (.targetCount names.length)

/-- The verdict on a formula that is to mark one variable. What is wrong with it as a
formula comes first. -/
def Formula.targetVerdict (formula : Formula) (available : List Text) : Verdict :=
  let verdict := formula.verdict available
  if verdict.valid then
    match formula.target with
    | .ok name => { verdict with target? := some name }
    | .error problem => { verdict with problem? := some problem }
  else verdict

/-- **Validating a formula that is to mark one variable.** -/
def validateTarget (s : Text) (available : List Text) : Verdict :=
  match Formula.parse s with
  | .error cause => cause.verdict
  | .ok formula => formula.targetVerdict available

end AssayRules
