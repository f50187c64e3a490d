import AssayRules.Text.Basic

/-!
# Rules

A **rule** is a formula as a laboratory keeps it: under a name, with a color to mark
cells in, switched on or off, for one table or for all of them. Its formula is kept as
the text that was entered, and may turn out not to be one.
-/

namespace AssayRules

/-- **What a rule is about**: the cells of one table, or how tables relate. -/
inductive RuleKind where
  | cellValidation
  | relational
deriving DecidableEq, Repr

namespace RuleKind

/-- How a kind is written. -/
def text : RuleKind → Text
  | cellValidation => utf8 "CELL_VALIDATION"
  | relational => utf8 "RELATIONAL"

/-- The kind that a text writes. -/
def ofText? (s : Text) : Option RuleKind :=
  [cellValidation, relational].find? fun kind => kind.text == s

end RuleKind

/-- **A rule.** -/
structure Rule where
  id : Text
  name : Text
  /-- The formula as it was entered. -/
  formula : Text
  /-- The color to mark cells in, as it was entered. -/
  color : Text := []
  kind : RuleKind := .cellValidation
  /-- The table the rule is for; without one it is for every table. -/
  tableId? : Option Text := none
  /-- Whether the rule is switched on. -/
  active : Bool := true
deriving DecidableEq, Repr

namespace Rule

/-- **Whether a rule applies to a table.** It has to be switched on, and be for every
table or for this one. A table without an identity has no rules of its own. -/
def appliesTo (tableId? : Option Text) (rule : Rule) : Bool :=
  rule.active && (rule.tableId?.isNone || rule.tableId? == tableId?)

/-- The rules that apply to a table, in order. -/
def select (rules : List Rule) (tableId? : Option Text) : List Rule :=
  rules.filter (appliesTo tableId?)

end Rule

end AssayRules
