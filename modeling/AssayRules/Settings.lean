import AssayRules.Comparison
import AssayRules.Program.OfTokens
import AssayRules.Table.Readings

/-!
# Settings

What a laboratory may decide about marking: which columns a table has beside its
values, how close numbers count as equal, how tight operations bind, which rows a rule
marks, and with how many workers. Each has a default.

Settings are taken as they are given. A column that does not exist, a tolerance below
zero or a color that is none are no faults here, and show in what marking does with
them.
-/

namespace AssayRules

/-- **Which rows a rule marks** in a column in which it holds. -/
inductive MarkingTarget where
  /-- The rows of all variables of the rule. -/
  | referenced
  /-- The rows of the variables on the left of its comparison. -/
  | leftOperand
  /-- Every row with a reading. -/
  | allRows
deriving DecidableEq, Repr

/-- How a marking target is written in settings. -/
def MarkingTarget.text : MarkingTarget → Text
  | referenced => utf8 "referenced"
  | leftOperand => utf8 "left_operand"
  | allRows => utf8 "all_rows"

/-- **How much is logged.** -/
inductive LogLevel where
  | trace
  | debug
  | info
  | warn
  | error
  | critical
  | off
deriving DecidableEq, Repr

namespace LogLevel

/-- All levels, the most talkative first. -/
def all : List LogLevel := [trace, debug, info, warn, error, critical, off]

/-- How a level is written in settings. -/
def text : LogLevel → Text
  | trace => utf8 "trace"
  | debug => utf8 "debug"
  | info => utf8 "info"
  | warn => utf8 "warn"
  | error => utf8 "error"
  | critical => utf8 "critical"
  | off => utf8 "off"

/-- The level that a text writes, in this letter case alone. -/
def ofText? (s : Text) : Option LogLevel := all.find? fun level => level.text == s

end LogLevel

/-- **The settings of marking.** -/
structure Settings where
  /-- The column that names the variables. -/
  variableColumn : Text := Table.defaultVariableColumn
  /-- Columns that hold no values. -/
  metadataColumns : List Text :=
    [utf8 "id", utf8 "Data Source", utf8 "Method", utf8 "Unit", utf8 "LOQ"]
  /-- How close numbers have to be to be equal. -/
  tolerance : Float := Comparison.defaultTolerance
  target : MarkingTarget := .referenced
  precedence : Precedence := .standard
  /-- How many workers share the value columns; none or one work in order. -/
  workers : Nat := 1
  /-- The color of a rule whose own color cannot be read. -/
  fallbackColor : Text := utf8 "#ff6b6b"
  logLevel : LogLevel := .info
deriving DecidableEq, Repr

/-- **Failure of getting settings.** -/
inductive SettingsError where
  /-- The file of the settings cannot be opened. -/
  | cannotOpen (path : Text)
deriving DecidableEq, Repr

/-- **The message** of a failure, as it is reported. -/
def SettingsError.message : SettingsError → Text
  | cannotOpen path => (utf8 "Cannot open configuration file: " ++ path).upToNul

/-- The text of the settings at a path, given what each path that can be opened holds. -/
def Settings.source (contents? : Text → Option Text) (path : Text) : Except SettingsError Text :=
  match contents? path with
  | some text => .ok text
  | none => .error (.cannotOpen path)

end AssayRules
