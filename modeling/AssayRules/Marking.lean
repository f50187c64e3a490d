import AssayRules.FormulaStore
import AssayRules.Marking.Cell
import AssayRules.Marking.Schedule
import AssayRules.Rule
import AssayRules.Settings

/-!
# Marking a table

Rules are tried on every value column of a table, and where one holds it marks the rows
it is about. Marking goes in three steps.

1. Each rule that is switched on is made ready: its formula is read through the store,
   its color checked, its targets folded. A rule whose formula cannot be read is
   reported as an issue and takes no further part.
2. Each value column is worked off on its own, by the readings in it. A rule holds in a
   column when all its variables have a reading there, both sides have a finite value,
   and these compare as it says; a rule that cannot be evaluated does not hold.
3. The marks of all columns are gathered by cell.

Only one thing can go wrong with a whole table: that it has no column of variables. It
is asked first, before any formula is read.
-/

namespace AssayRules

/-! ### Making rules ready -/

/-- **A rule made ready.** -/
structure ReadyRule where
  rule : Rule
  formula : Formula
  /-- The color it marks with. -/
  color : Text
  /-- The variables whose rows it marks, up to letter case. -/
  targets : List Text
deriving DecidableEq, Repr

/-- **A rule that takes no part**, as its formula cannot be read. -/
structure Issue where
  rule : Rule
  cause : Malformed
deriving DecidableEq, Repr

/-- The message of an issue, as it is reported. -/
def Issue.message (issue : Issue) : Text := issue.cause.message

/-- The variables whose rows a formula marks. -/
def MarkingTarget.variableNames (target : MarkingTarget) (formula : Formula) : List Text :=
  match target with
  | leftOperand => formula.leftVariables
  | _ => formula.variableNames

/-- The color of a rule: its own if it can be read, and else the fallback. -/
def Rule.markColor (rule : Rule) (fallback : Text) : Text :=
  if (Rgb.ofText? rule.color).isSome then rule.color else fallback

/-- A rule made ready, given its formula. -/
def Rule.ready (settings : Settings) (rule : Rule) (formula : Formula) : ReadyRule where
  rule := rule
  formula := formula
  color := rule.markColor settings.fallbackColor
  targets := (settings.target.variableNames formula).map Text.foldCase

/-- **The outcome of making rules ready.** -/
structure Preparation where
  ready : List ReadyRule
  issues : List Issue
  /-- The store once all formulas have been read through it. -/
  store : FormulaStore

/-- **Making rules ready**, in order. Rules that are switched off are passed over. -/
def prepare (settings : Settings) : List Rule → FormulaStore → Preparation
  | [], store => ⟨[], [], store⟩
  | rule :: rest, store =>
    if rule.active then
      match store.fetch rule.formula with
      | .ok (entry, store') =>
        let others := prepare settings rest store'
        { others with ready := rule.ready settings entry.formula :: others.ready }
      | .error cause =>
        let others := prepare settings rest store
        { others with issues := ⟨rule, cause⟩ :: others.issues }
    else prepare settings rest store

/-! ### One column -/

/-- **The values of the two sides of a formula, if it holds** over readings. -/
def Formula.outcome? (settings : Settings) (readings : Readings) (formula : Formula) :
    Option (Float × Float) :=
  if formula.variableNames.all readings.contains then
    match evaluate formula.left readings settings.precedence,
        evaluate formula.right readings settings.precedence with
    | .ok left, .ok right =>
      if formula.comparison.holds left right settings.tolerance then some (left, right)
      else none
    | _, _ => none
  else none

/-- **A rule that holds** in a column, with the values of its sides. -/
structure HeldRule where
  ready : ReadyRule
  left : Float
  right : Float
deriving DecidableEq, Repr

namespace HeldRule

/-- Whether the rule marks the row of a variable. -/
def covers (target : MarkingTarget) (name : Text) (held : HeldRule) : Bool :=
  target == .allRows || held.ready.targets.contains name.foldCase

/-- What the rule says about the cells it marks. -/
def detail (held : HeldRule) : Detail where
  ruleId := held.ready.rule.id
  name := held.ready.rule.name
  formula := held.ready.rule.formula
  color := held.ready.color
  left := held.left
  right := held.right

end HeldRule

/-- The rules that hold over the readings of a column, in order. -/
def heldRules (settings : Settings) (rules : List ReadyRule) (readings : Readings) :
    List HeldRule :=
  rules.filterMap fun ready =>
    (ready.formula.outcome? settings readings).map fun (left, right) => ⟨ready, left, right⟩

/-- The variable of a row that may be marked in a column: it has a name, and a reading
there. -/
def Table.markedName? (table : Table) (variableColumn column row : Nat) : Option Text :=
  if (table.cell row column).reading?.isSome then table.rowName? variableColumn row else none

/-- The marks in one row of a column. -/
def rowMarks (settings : Settings) (table : Table) (variableColumn : Nat)
    (held : List HeldRule) (column : Text × Nat) (row : Nat) : List Mark :=
  match table.markedName? variableColumn column.2 row with
  | some name =>
    (held.filter (HeldRule.covers settings.target name)).map fun rule =>
      ⟨row, column.1, rule.detail⟩
  | none => []

/-- **The marks in one column**, from the top row down, and in each row in the order of
the rules. A column without readings is passed over, and so is one in which no rule
holds. -/
def columnMarks (settings : Settings) (table : Table) (variableColumn : Nat)
    (rules : List ReadyRule) (column : Text × Nat) : List Mark :=
  let readings := table.readings variableColumn column.2
  if readings.isEmpty then []
  else
    let held := heldRules settings rules readings
    if held.isEmpty then []
    else
      (List.range table.rows.length).flatMap
        (rowMarks settings table variableColumn held column)

/-! ### The whole table -/

/-- **The value columns** of a table, each with its position: all but the one of the
variables and those that settings name as holding no values. -/
def Table.valueColumns (table : Table) (settings : Settings) (variableColumn : Nat) :
    List (Text × Nat) :=
  table.columns.zipIdx.filter fun column =>
    column.2 != variableColumn && !settings.metadataColumns.contains column.1

/-- **A report on a table.** -/
structure Report where
  cells : List MarkedCell
  issues : List Issue
deriving DecidableEq, Repr

/-- **Marking a table** by rules: the report, and the store afterwards. -/
def mark (settings : Settings) (rules : List Rule) (table : Table) (store : FormulaStore) :
    Except TableError (Report × FormulaStore) :=
  match table.variableColumn settings.variableColumn with
  | .error missing => .error missing
  | .ok variableColumn =>
    let prepared := prepare settings rules store
    -- no column is looked at when there is no rule to try
    if prepared.ready.isEmpty then .ok (⟨[], prepared.issues⟩, prepared.store)
    else
      let columns := table.valueColumns settings variableColumn
      -- the results come in the order of the columns, whoever worked them off
      let marks := Schedule.run settings.workers []
        (columnMarks settings table variableColumn prepared.ready) columns
      .ok (⟨gather marks.flatten, prepared.issues⟩, prepared.store)

/-- Marking a table by those of the rules that apply to it. -/
def markApplicable (settings : Settings) (rules : List Rule) (table : Table)
    (tableId? : Option Text) (store : FormulaStore) :
    Except TableError (Report × FormulaStore) :=
  mark settings (Rule.select rules tableId?) table store

end AssayRules
