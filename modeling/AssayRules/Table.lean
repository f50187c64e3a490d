import AssayRules.Text.Basic

/-!
# Tables of measurements

A table has one row per variable and one column per sampling, together with the column
that names the variables and columns of remarks on them. Rows may be shorter than the
list of columns, and what is not there reads as an empty cell; the same goes for rows
and columns that do not exist.
-/

namespace AssayRules

/-- **A cell** of a table. -/
inductive Cell where
  | empty
  | number (value : Float)
  | text (s : Text)
deriving DecidableEq, Repr

/-- The text of a cell. A number is no text, and so never names a variable. -/
def Cell.text? : Cell → Option Text
  | .text s => some s
  | _ => none

/-- **A table**: the names of its columns, and its rows. -/
structure Table where
  columns : List Text
  rows : List (List Cell)
deriving DecidableEq, Repr

namespace Table

/-- The position of the first column of a name. -/
def column? (table : Table) (name : Text) : Option Nat := table.columns.idxOf? name

/-- **The cell in a row and a column**, both counted from zero. -/
def cell (table : Table) (row column : Nat) : Cell :=
  ((table.rows[row]?).bind fun cells => cells[column]?).getD .empty

end Table

end AssayRules
