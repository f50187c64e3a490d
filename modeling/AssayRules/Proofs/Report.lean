import AssayRules.Proofs.Marking

/-!
# What a report looks like

Whatever the rules are, and however columns are called, a report on a table is well formed
(`mark_wellFormed`). That its cells are on different places and that the parts of each are in
step is so of all gathered cells (`gathered_gather`).

Where the cells are and in which order follows from the marks, which are made column by column
and from the top row down (`pairwise_tableMarks`). With the names of value columns distinct, a
place belongs to one column only and is not met again once it has been left, so that the order
of cells is strict (`pairwise_cells_tableMarks`).
-/

namespace AssayRules

variable {settings : Settings} {rules : List Rule} {table : Table} {variableColumn : Nat}
  {store : FormulaStore}

/-! ### The order of marks -/

/-- In a column marks go from the top row down. -/
theorem pairwise_columnMarks (ready : List ReadyRule) (column : Text × Nat) :
    (columnMarks settings table variableColumn ready column).Pairwise
      fun m m' => m.row ≤ m'.row := by
  rw [columnMarks_eq_flatMap, List.pairwise_flatMap]
  have hrow : ∀ held row, ∀ m ∈ rowMarks settings table variableColumn held column row,
      m.row = row := fun _ _ _ hm => congrArg Prod.fst (place_of_mem_rowMarks hm)
  -- within a row, and then from row to row
  constructor
  · intro row _
    refine List.pairwise_of_forall_mem_list fun m hm m' hm' => ?_
    rw [hrow _ row m hm, hrow _ row m' hm']
  · refine (List.pairwise_lt_range (n := table.rows.length)).imp ?_
    intro row row' hlt m hm m' hm'
    rw [hrow _ row m hm, hrow _ row' m' hm']
    exact Nat.le_of_lt hlt

theorem Table.pairwise_valueColumns (table : Table) (settings : Settings)
    (variableColumn : Nat) :
    (table.valueColumns settings variableColumn).Pairwise fun a b => a.2 < b.2 := by
  have hpositions : (table.columns.zipIdx.map Prod.snd).Pairwise (· < ·) := by
    rw [List.zipIdx_map_snd]
    exact List.pairwise_lt_range'
  exact (List.pairwise_map.1 hpositions).filter _

/-- **The order of two places** in a table: by the positions of their columns, and then by
their rows, which may be the same. -/
def Table.PlacedBefore (table : Table) (settings : Settings) (variableColumn : Nat)
    (place place' : Nat × Text) : Prop :=
  ∀ p q, (place.2, p) ∈ table.valueColumns settings variableColumn →
    (place'.2, q) ∈ table.valueColumns settings variableColumn →
      p < q ∨ p = q ∧ place.1 ≤ place'.1

/-- **Marks are made in the order of their places**, if the names of value columns are
distinct. -/
theorem pairwise_tableMarks
    (hnames : ((table.valueColumns settings variableColumn).map Prod.fst).Nodup) :
    (tableMarks settings rules table variableColumn store).Pairwise fun m m' =>
      table.PlacedBefore settings variableColumn m.place m'.place := by
  -- a mark that was made for a column can only be read as being in this column
  have hposition : ∀ column ∈ table.valueColumns settings variableColumn, ∀ m ∈
      columnMarks settings table variableColumn (prepare settings rules store).ready column,
      ∀ p, (m.column, p) ∈ table.valueColumns settings variableColumn → p = column.2 := by
    intro column hcolumn m hm p hp
    have hname : m.column = column.1 := by
      obtain ⟨_, _, _, _, _, _, hname, _⟩ := mem_columnMarks.1 hm
      exact hname
    have heq : (m.column, p) = column := List.inj_on_of_nodup_map hnames hp hcolumn hname
    exact congrArg Prod.snd heq
  -- within a column, and then from column to column
  rw [tableMarks, List.pairwise_flatMap]
  constructor
  · intro column hcolumn
    refine (pairwise_columnMarks _ column).imp_of_mem ?_
    intro m m' hm hm' hle p q hp hq
    -- in one column the rows decide
    refine Or.inr ⟨?_, hle⟩
    rw [hposition column hcolumn m hm p hp, hposition column hcolumn m' hm' q hq]
  · refine (table.pairwise_valueColumns settings variableColumn).imp_of_mem ?_
    intro column column' hcolumn hcolumn' hlt m hm m' hm' p q hp hq
    refine Or.inl ?_
    rw [hposition column hcolumn m hm p hp, hposition column' hcolumn' m' hm' q hq]
    exact hlt

/-! ### The order of cells -/

/-- Cells are in the order in which their places are first met, and no place is met twice. -/
theorem pairwise_cells_gather {R : Nat × Text → Nat × Text → Prop} {marks : List Mark}
    (h : marks.Pairwise fun m m' => R m.place m'.place) :
    (gather marks).Pairwise fun cell cell' =>
      R (cell.row, cell.column) (cell'.row, cell'.column) ∧
        (cell.row, cell.column) ≠ (cell'.row, cell'.column) := by
  rw [gather, List.pairwise_map]
  have hplaces : (marks.map Mark.place).eraseDups.Pairwise R :=
    (List.pairwise_map.2 h).sublist (eraseDupsBy_sublist _ _)
  exact hplaces.and nodup_eraseDups

/-- A cell that is marked is in a value column, and in a row of the table. -/
theorem valueColumn_of_mem_gather {cell : MarkedCell}
    (hcell : cell ∈ gather (tableMarks settings rules table variableColumn store)) :
    (∃ position, (cell.column, position) ∈ table.valueColumns settings variableColumn) ∧
      cell.row < table.rows.length := by
  obtain ⟨m, hm, hplace⟩ := mem_places_gather.1 ⟨cell, hcell, rfl⟩
  obtain ⟨column, hvalue, hm⟩ := List.mem_flatMap.1 hm
  obtain ⟨_, _, _, _, _, hrow, hname, _⟩ := mem_columnMarks.1 hm
  obtain ⟨hmrow, hmcolumn⟩ := Prod.mk.inj hplace
  rw [← hmrow, ← hmcolumn, hname]
  exact ⟨⟨column.2, hvalue⟩, hrow⟩

/-- **Cells come column by column and from the top row down**, if the names of value columns
are distinct. -/
theorem pairwise_cells_tableMarks
    (hnames : ((table.valueColumns settings variableColumn).map Prod.fst).Nodup) :
    (gather (tableMarks settings rules table variableColumn store)).Pairwise fun cell cell' =>
      ∀ p q, (cell.column, p) ∈ table.valueColumns settings variableColumn →
        (cell'.column, q) ∈ table.valueColumns settings variableColumn →
          p < q ∨ p = q ∧ cell.row < cell'.row := by
  refine (pairwise_cells_gather (pairwise_tableMarks hnames)).imp ?_
  rintro cell cell' ⟨hbefore, hne⟩ p q hp hq
  rcases hbefore p q hp hq with hlt | ⟨rfl, hle⟩
  · exact Or.inl hlt
  · -- one position has one name, so the rows differ
    have hsame : cell.column = cell'.column := by
      have h := (Table.mem_valueColumns.1 hp).1
      rw [(Table.mem_valueColumns.1 hq).1] at h
      exact (Option.some.inj h).symm
    have hrow : cell.row ≠ cell'.row := fun h => hne (Prod.ext h hsame)
    exact Or.inr ⟨rfl, Nat.lt_of_le_of_ne hle hrow⟩

/-! ### Reports -/

/-- **A report that is well formed.** -/
structure Report.WellFormed (settings : Settings) (table : Table) (variableColumn : Nat)
    (report : Report) : Prop where
  /-- No two cells are on one place, as a reader of the report is told it. -/
  nodup : (report.cells.map fun cell => (MarkedCell.rowLabel cell.row, cell.column)).Nodup
  /-- The rules of a cell, its color and its message are those of its details. -/
  inStep : ∀ cell ∈ report.cells, cell.InStep
  /-- A cell is in a row of the table, counted from one. -/
  row : ∀ cell ∈ report.cells, ∃ n, 1 ≤ n ∧ n ≤ table.rows.length ∧ n = cell.row + 1 ∧
    MarkedCell.rowLabel cell.row = utf8 "row-" ++ utf8 (toString n)
  /-- A cell is in a value column. -/
  column : ∀ cell ∈ report.cells, ∃ position,
    (cell.column, position) ∈ table.valueColumns settings variableColumn
  /-- Cells come column by column and from the top row down, if a name tells the column. -/
  order : ((table.valueColumns settings variableColumn).map Prod.fst).Nodup →
    report.cells.Pairwise fun cell cell' => ∀ p q,
      (cell.column, p) ∈ table.valueColumns settings variableColumn →
      (cell'.column, q) ∈ table.valueColumns settings variableColumn →
        p < q ∨ p = q ∧ cell.row < cell'.row

/-- **Every report is well formed**, whichever rules there are and however columns are
called. -/
theorem mark_wellFormed (settings : Settings) (rules : List Rule) (table : Table)
    (store : FormulaStore) (variableColumn : Nat)
    (hcolumn : table.column? settings.variableColumn = some variableColumn) :
    ∃ report store', mark settings rules table store = .ok (report, store') ∧
      report.WellFormed settings table variableColumn := by
  -- four of the parts come from how marks are gathered, and the order from how they are made
  refine ⟨_, _, mark_eq_ok settings rules table store hcolumn, ?_⟩
  have hgathered := gathered_gather (tableMarks settings rules table variableColumn store)
  refine ⟨?_, hgathered.inStep, ?_, ?_, pairwise_cells_tableMarks⟩
  · -- a place that is told twice would have one text twice
    refine List.Nodup.of_map (fun told : Text × Text => told.1 ++ 0x0A :: told.2) ?_
    rw [List.map_map]
    exact hgathered.nodup
  · intro cell hcell
    obtain ⟨-, hrow⟩ := valueColumn_of_mem_gather hcell
    exact ⟨cell.row + 1, by omega, by omega, rfl, rfl⟩
  · intro cell hcell
    exact (valueColumn_of_mem_gather hcell).1

/-- Two rules of one identity, one of them without a color, over two columns of one name. -/
theorem mark_wellFormed_of_repeats :
    let iron : Rule := { id := utf8 "1", name := utf8 "Iron", formula := utf8 "Fe > 1" }
    let steel : Rule := { iron with color := utf8 "#00f", formula := utf8 "Fe > 2" }
    let table : Table := ⟨[utf8 "Variable", utf8 "March", utf8 "March"],
      [[.text (utf8 "Fe"), .number 2.0, .number 3.0]]⟩
    ∃ report store', mark {} [iron, steel] table .empty = .ok (report, store') ∧
      report.WellFormed {} table 0 := by
  intro iron steel table
  exact mark_wellFormed {} [iron, steel] table .empty 0 (by decide)

end AssayRules
