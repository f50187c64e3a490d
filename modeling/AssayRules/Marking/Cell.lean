import AssayRules.Color

/-!
# Marked cells

A **mark** says that one rule holds for one cell. The marks of a table are gathered by
cell, in the order in which cells are first met, so that a cell that several rules mark
is reported once: with the rules in order, each rule once, the blend of their colors and
the list of their names.

A cell is known by its row and by the **name** of its column. Columns of one name are
one column to the reader of a report, and their marks are gathered together.
-/

namespace AssayRules

/-- **What a rule has to say about a cell**: the rule, the color it marks with, and the
values of its two sides. -/
structure Detail where
  ruleId : Text
  name : Text
  formula : Text
  color : Text
  left : Float
  right : Float
deriving DecidableEq, Repr

/-- **A mark.** -/
structure Mark where
  /-- The row, counted from zero. -/
  row : Nat
  /-- The name of the column. -/
  column : Text
  detail : Detail
deriving DecidableEq, Repr

/-- The cell that a mark is on. -/
def Mark.place (mark : Mark) : Nat × Text := (mark.row, mark.column)

/-- **A marked cell.** -/
structure MarkedCell where
  /-- The row, counted from zero. -/
  row : Nat
  /-- The name of the column. -/
  column : Text
  color : Text
  message : Text
  ruleIds : List Text
  details : List Detail
deriving DecidableEq, Repr

namespace MarkedCell

/-- How a row is called in a report, where rows are counted from one. -/
def rowLabel (row : Nat) : Text := utf8 "row-" ++ utf8 (toString (row + 1))

/-- **The cell of some details**: of two with one rule the first counts. -/
def ofDetails (place : Nat × Text) (details : List Detail) : MarkedCell :=
  let kept := details.eraseDupsBy fun a b => a.ruleId == b.ruleId
  { row := place.1
    column := place.2
    color := blend (kept.map Detail.color)
    message := Text.commaList (kept.map Detail.name).eraseDups
    ruleIds := kept.map Detail.ruleId
    details := kept }

end MarkedCell

/-- The details of the marks on one cell, in order. -/
def detailsAt (marks : List Mark) (place : Nat × Text) : List Detail :=
  (marks.filter fun mark => mark.place == place).map Mark.detail

/-- **Gathering marks by cell.** -/
def gather (marks : List Mark) : List MarkedCell :=
  (marks.map Mark.place).eraseDups.map fun place => .ofDetails place (detailsAt marks place)

end AssayRules
