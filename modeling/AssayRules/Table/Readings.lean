import AssayRules.Readings
import AssayRules.Table.Number

/-!
# The readings of a column

Every row that has both a reading in the value column and a text in the variable
column records its reading under the canonical name, and under the name as it was
entered too if that is spelled otherwise. Rows are taken from the top, so of two rows
for one variable the lower one counts.
-/

namespace AssayRules

/-- A table cannot be read: it has no column of the name that is to hold the variables. -/
inductive TableError where
  | columnMissing (name : Text)
deriving DecidableEq, Repr

/-- **The message** of a table that cannot be read, as it is reported. -/
def TableError.message : TableError → Text
  | columnMissing name => (utf8 "Table has no '" ++ name ++ utf8 "' column").upToNul

namespace Table

/-- The name in a row, in canonical spelling. Numbers and blanks are no names. -/
def rowName? (table : Table) (variableColumn row : Nat) : Option Text :=
  (table.cell row variableColumn).text?.bind fun entered =>
    let name := Name.canonical entered
    if name.isEmpty then none else some name

/-- **What a row records**: a spelling with a reading, or two, or none. -/
def rowReadings (table : Table) (variableColumn valueColumn row : Nat) :
    List (Text × Float) :=
  match (table.cell row variableColumn).text?, (table.cell row valueColumn).reading? with
  | some entered, some value =>
    let name := Name.canonical entered
    if name.isEmpty then []
    else if entered.trim = name then [(name, value)]
    else [(name, value), (entered.trim, value)]
  | _, _ => []

/-- **The readings of a value column**, by the names in a variable column. -/
def readings (table : Table) (variableColumn valueColumn : Nat) : Readings :=
  .ofList ((List.range table.rows.length).flatMap
    (table.rowReadings variableColumn valueColumn))

/-- The name of the column that holds the variables unless settings say otherwise. -/
def defaultVariableColumn : Text := utf8 "Variable"

/-- The position of the column that holds the variables. -/
def variableColumn (table : Table) (name : Text) : Except TableError Nat :=
  match table.column? name with
  | some column => .ok column
  | none => .error (.columnMissing name)

end Table

end AssayRules
