import AssayRules.Proofs.Rows

/-!
# No rule that holds goes unmarked

Whether a rule holds in a column is decided over the readings that were recorded there, in which
a variable is looked up by its spelling, by its canonical spelling, and up to letter case. Which
rows it marks is decided by going over the rows again, and comparing their names with the
variables up to letter case. The two agree: a variable that has a reading in a column is the name
of a row there (`Table.exists_row_of_contains`). For what was found is a name with something
behind it that is stripped, and nothing can be behind it if it is to agree with a variable that
ends with nothing of the sort.

So every variable of a rule that holds has a row with the mark of the rule
(`mark_covers_variables`).
-/

namespace AssayRules

/-- **A variable that has a reading** in a column is the name of a row there, up to letter case.
Only the variable has to be its own canonical spelling; names in rows may be any bytes. -/
theorem Table.exists_row_of_contains {table : Table} {variableColumn column : Nat} {v : Text}
    (hv : v.IsUtf8) (hcanonical : Name.canonical v = v)
    (h : (table.readings variableColumn column).contains v = true) :
    ∃ row name, table.markedName? variableColumn column row = some name ∧
      name.foldCase = v.foldCase := by
  obtain ⟨spelling, hspelling, hfound⟩ := Readings.contains_iff.1 h
  -- however it was found, it agrees with the variable up to case
  have hfold : spelling.foldCase = v.foldCase := by
    rw [hcanonical, or_self_left] at hfound
    exact hfound.elim (congrArg Text.foldCase) id
  -- what is found was recorded for a row, whose name it is but for what was stripped
  obtain ⟨row, hrecords⟩ := mem_spellings_readings.1 hspelling
  obtain ⟨name, stripped, hname, rfl, hstripped⟩ := hrecords.exists_name
  obtain rfl := Name.eq_nil_of_foldCase_eq hv hcanonical hstripped hfold
  rw [List.append_nil] at hfold
  exact ⟨row, name, hname, hfold⟩

theorem Table.rowName?_of_markedName? {table : Table} {variableColumn column row : Nat}
    {name : Text} (h : table.markedName? variableColumn column row = some name) :
    ((table.cell row column).reading?).isSome = true ∧
      table.rowName? variableColumn row = some name := by
  unfold markedName? at h
  split at h
  · rename_i hreading
    exact ⟨hreading, h⟩
  · cases h

/-- The variables whose rows are marked are variables of the formula. -/
theorem MarkingTarget.variableNames_subset (target : MarkingTarget) (formula : Formula) :
    target.variableNames formula ⊆ formula.variableNames := by
  cases target with
  | leftOperand => exact List.subset_append_left _ _
  | _ => exact List.Subset.refl _

theorem MarkingTarget.covers_of_foldCase_eq {target : MarkingTarget} {formula : Formula}
    {name v : Text} (hv : v ∈ target.variableNames formula) (h : name.foldCase = v.foldCase) :
    target.Covers formula name := by
  cases target with
  | allRows => trivial
  | _ => exact ⟨v, hv, h.symm⟩

/-- **No rule that holds goes unmarked**: if all variables of its formula have readings in a
value column, both sides have a value there and these compare as the formula says, then each of
the variables that are to be marked is the name of a row with a reading, up to letter case, and
the cell of this row in the column has the rule among its rules. -/
theorem mark_covers_variables (settings : Settings) (rules : List Rule) (table : Table)
    (store : FormulaStore) (variableColumn : Nat)
    (hcolumn : table.column? settings.variableColumn = some variableColumn) :
    ∃ report store', mark settings rules table store = .ok (report, store') ∧
      ∀ rule ∈ rules, rule.active = true →
      ∀ formula, Formula.parse rule.formula = .ok formula →
      ∀ column ∈ table.valueColumns settings variableColumn,
      (∀ v ∈ settings.target.variableNames formula, v.IsUtf8 ∧ Name.canonical v = v) →
      (∀ v ∈ formula.variableNames,
        (table.readings variableColumn column.2).contains v = true) →
      ∀ left right,
      evaluate formula.left (table.readings variableColumn column.2) settings.precedence
        = .ok left →
      evaluate formula.right (table.readings variableColumn column.2) settings.precedence
        = .ok right →
      formula.comparison.holds left right settings.tolerance = true →
      ∀ v ∈ settings.target.variableNames formula, ∃ row name,
        ((table.cell row column.2).reading?).isSome = true ∧
        table.rowName? variableColumn row = some name ∧ name.foldCase = v.foldCase ∧
        ∃ cell ∈ report.cells, cell.row = row ∧ cell.column = column.1 ∧
          rule.id ∈ cell.ruleIds := by
  refine ⟨_, _, mark_eq_ok settings rules table store hcolumn, ?_⟩
  intro rule hrule hactive formula hreads column hvalue hnames hresolves left right hleft hright
    hholds v hv
  obtain ⟨hutf8, hcanonical⟩ := hnames v hv
  -- the row whose name this variable has has a mark, and so it is in a cell
  obtain ⟨row, name, hname, hfold⟩ := Table.exists_row_of_contains hutf8 hcanonical
    (hresolves v (settings.target.variableNames_subset formula hv))
  obtain ⟨hreading, hrow⟩ := Table.rowName?_of_markedName? hname
  obtain ⟨-, entered, hentered, hne, rfl⟩ := Table.markedName?_eq_some_iff.1 hname
  obtain ⟨hposition, hvariable, hmetadata⟩ := Table.mem_valueColumns.1 hvalue
  have hmark : ⟨row, column.1, HeldRule.detail ⟨rule.ready settings formula, left, right⟩⟩ ∈
      tableMarks settings rules table variableColumn store :=
    mem_tableMarks.2 ⟨rule, hrule, left, right, formula, column.2, entered,
      ⟨hactive, hreads, hposition, ⟨hvariable, hmetadata⟩, Cell.isSome_reading?_iff.1 hreading,
        hentered, hne, hresolves, hleft, hright, Comparison.holds_iff.1 hholds,
        MarkingTarget.covers_of_foldCase_eq hv hfold⟩, rfl⟩
  obtain ⟨cell, hcell, hplace, hid⟩ := exists_cell_of_mem hmark
  obtain ⟨hcellRow, hcellColumn⟩ := Prod.mk.inj hplace
  exact ⟨row, _, hreading, hrow, hfold, cell, hcell, hcellRow, hcellColumn, hid⟩

/-- A row that is entered with a comma and a blank behind it, and in another letter case than in
the formula. -/
theorem mark_covers_variables_of_comma :
    let rule : Rule := { id := utf8 "1", name := utf8 "Iron", formula := utf8 "[fe] > 1" }
    let table : Table := ⟨[utf8 "Variable", utf8 "March"],
      [[.text (utf8 "Mn"), .number 1.0], [.text (utf8 "Fe, "), .number 2.0]]⟩
    ∃ report store', mark {} [rule] table .empty = .ok (report, store') ∧
      ∃ row name, ((table.cell row 1).reading?).isSome = true ∧
        table.rowName? 0 row = some name ∧ name.foldCase = (utf8 "fe").foldCase ∧
        ∃ cell ∈ report.cells, cell.row = row ∧ cell.column = utf8 "March" ∧
          rule.id ∈ cell.ruleIds := by
  intro rule table
  obtain ⟨report, store', hmark, hcovers⟩ :=
    mark_covers_variables {} [rule] table .empty 0 (by decide)
  let formula : Formula := ⟨utf8 "[fe]", .greater, utf8 "1", [utf8 "fe"], []⟩
  have hreads : Formula.parse rule.formula = .ok formula :=
    toOption_eq_some_iff.1 (by decide +kernel)
  have hnames : ∀ v ∈ [utf8 "fe"], v.IsUtf8 ∧ Name.canonical v = v :=
    List.forall_mem_singleton.2 ⟨⟨_, rfl⟩, by decide⟩
  exact ⟨report, store', hmark, hcovers rule List.mem_cons_self rfl formula hreads
    (utf8 "March", 1) (by decide) hnames (by decide +kernel) 2.0 1.0 (by decide +kernel)
    (by decide +kernel) (by decide +kernel) (utf8 "fe") List.mem_cons_self⟩

end AssayRules
