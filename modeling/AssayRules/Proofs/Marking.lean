import AssayRules.Marking
import AssayRules.Proofs.CellNumber
import AssayRules.Proofs.Gathering
import AssayRules.Proofs.Preparation
import AssayRules.Proofs.Readings
import AssayRules.Proofs.Schedule

/-!
# Which cells are marked

What marking a table reports is said here without any of the steps it is done in:
`Settings.Marks` lists what has to be true of a rule, a row and a column for the rule to
mark the cell, and `mark_iff_marks` is the equivalence.

On the way each step is replaced by what belongs to its result. A rule is made ready if it
is switched on and its formula reads, whatever the store held before
(`mem_ready_prepare`). A column is passed over only when nothing in it could be marked
(`columnMarks_eq_flatMap`), as a row with a name and a reading is a row that recorded a
reading. Sharing the columns among workers changes nothing (`Schedule.run_eq_map`).
Gathering drops a detail only in favour of another of the same rule on the same cell, and
with the names of columns and the identities of rules distinct these are the same detail
(`exists_mem_gather`).
-/

namespace AssayRules

/-! ### One column -/

/-- A row that may be marked recorded a reading. -/
theorem Table.rowReadings_ne_nil {table : Table} {variableColumn column row : Nat}
    {name : Text} (h : table.markedName? variableColumn column row = some name) :
    table.rowReadings variableColumn column row ≠ [] := by
  -- the name of the row is recorded with its reading, and maybe under a second spelling
  unfold markedName? at h
  split at h
  · rename_i hreading
    obtain ⟨value, hvalue⟩ := Option.isSome_iff_exists.1 hreading
    obtain ⟨entered, hentered, hname⟩ := Option.bind_eq_some_iff.1 h
    simp only [rowReadings, hentered, hvalue]
    dsimp only at hname
    split at hname
    · cases hname
    · rename_i hne
      rw [if_neg hne]
      split <;> simp
  · cases h

/-- In a column without readings no row may be marked. -/
theorem Table.markedName?_eq_none_of_isEmpty {table : Table} {variableColumn column row : Nat}
    (h : (table.readings variableColumn column).isEmpty = true)
    (hrow : row < table.rows.length) : table.markedName? variableColumn column row = none := by
  rw [readings, Readings.isEmpty_ofList, List.isEmpty_iff, List.flatMap_eq_nil_iff] at h
  cases hname : table.markedName? variableColumn column row with
  | none => rfl
  | some name => exact absurd (h row (List.mem_range.2 hrow)) (rowReadings_ne_nil hname)

/-- **Columns are passed over only when there is nothing to mark.** -/
theorem columnMarks_eq_flatMap (settings : Settings) (table : Table) (variableColumn : Nat)
    (rules : List ReadyRule) (column : Text × Nat) :
    columnMarks settings table variableColumn rules column
      = (List.range table.rows.length).flatMap (rowMarks settings table variableColumn
          (heldRules settings rules (table.readings variableColumn column.2)) column) := by
  unfold columnMarks
  dsimp only
  -- the two short ways out leave no row with a mark, either
  split
  · -- no readings: no row may be marked
    rename_i hempty
    refine (List.flatMap_eq_nil_iff.2 fun row hrow => ?_).symm
    rw [rowMarks, Table.markedName?_eq_none_of_isEmpty hempty (List.mem_range.1 hrow)]
  · split
    · -- no rule held: no rule covers a row
      rename_i hheld
      refine (List.flatMap_eq_nil_iff.2 fun row _ => ?_).symm
      rw [rowMarks, List.isEmpty_iff.1 hheld]
      split <;> rfl
    · rfl

theorem columnMarks_nil (settings : Settings) (table : Table) (variableColumn : Nat)
    (column : Text × Nat) : columnMarks settings table variableColumn [] column = [] := by
  rw [columnMarks_eq_flatMap, heldRules, List.filterMap_nil]
  refine List.flatMap_eq_nil_iff.2 fun row _ => ?_
  rw [rowMarks]
  split <;> rfl

theorem place_of_mem_rowMarks {settings : Settings} {table : Table} {variableColumn : Nat}
    {held : List HeldRule} {column : Text × Nat} {row : Nat} {m : Mark}
    (h : m ∈ rowMarks settings table variableColumn held column row) :
    m.place = (row, column.1) := by
  unfold rowMarks at h
  split at h
  · obtain ⟨rule, -, rfl⟩ := List.mem_map.1 h
    rfl
  · cases h

/-- **The marks in a column**: one for each row that may be marked and each rule that holds
and covers it. -/
theorem mem_columnMarks {settings : Settings} {table : Table} {variableColumn : Nat}
    {rules : List ReadyRule} {column : Text × Nat} {m : Mark} :
    m ∈ columnMarks settings table variableColumn rules column ↔
      ∃ name left right, ∃ ready ∈ rules,
        m.row < table.rows.length ∧ m.column = column.1 ∧
        table.markedName? variableColumn column.2 m.row = some name ∧
        ready.formula.outcome? settings (table.readings variableColumn column.2)
          = some (left, right) ∧
        HeldRule.covers settings.target name ⟨ready, left, right⟩ = true ∧
        m.detail = HeldRule.detail ⟨ready, left, right⟩ := by
  rw [columnMarks_eq_flatMap]
  simp only [List.mem_flatMap, List.mem_range]
  -- row by row and rule by rule, as the marks are made
  constructor
  · rintro ⟨row, hrow, hm⟩
    unfold rowMarks at hm
    split at hm
    · rename_i name hname
      obtain ⟨held, hheld, rfl⟩ := List.mem_map.1 hm
      obtain ⟨hheld, hcovers⟩ := List.mem_filter.1 hheld
      obtain ⟨ready, hready, houtcome⟩ := List.mem_filterMap.1 hheld
      obtain ⟨⟨left, right⟩, hsides, rfl⟩ := Option.map_eq_some_iff.1 houtcome
      exact ⟨name, left, right, ready, hready, hrow, rfl, hname, hsides, hcovers, rfl⟩
    · cases hm
  · rintro ⟨name, left, right, ready, hready, hrow, hcolumn, hname, houtcome, hcovers, hdetail⟩
    refine ⟨m.row, hrow, ?_⟩
    -- the rule holds over these readings and covers this row, so that it is not filtered out
    rw [rowMarks, hname]
    refine List.mem_map.2 ⟨⟨ready, left, right⟩, List.mem_filter.2 ⟨?_, hcovers⟩, ?_⟩
    · exact List.mem_filterMap.2 ⟨ready, hready, by rw [houtcome]; rfl⟩
    · rw [← hcolumn, ← hdetail]

/-! ### What it takes to be marked -/

/-- **Which rows a marking target covers**, by the variables of a formula up to letter
case. -/
def MarkingTarget.Covers (target : MarkingTarget) (formula : Formula) (name : Text) : Prop :=
  match target with
  | referenced => ∃ v ∈ formula.variableNames, v.foldCase = name.foldCase
  | leftOperand => ∃ v ∈ formula.leftVariables, v.foldCase = name.foldCase
  | allRows => True

/-- **When a comparison is true** of two numbers. Whether they are equal is asked up to a
tolerance, and with a NaN nothing is true. -/
def Comparison.IsTrue (comparison : Comparison) (left right tolerance : Float) : Prop :=
  left.isNaN = false ∧ right.isNaN = false ∧
    match comparison with
    | greater => left > right
    | less => left < right
    | atLeast => left ≥ right
    | atMost => left ≤ right
    | equal => (left - right).abs < tolerance
    | notEqual => (left - right).abs ≥ tolerance

theorem Comparison.holds_iff {comparison : Comparison} {left right tolerance : Float} :
    comparison.holds left right tolerance = true ↔ comparison.IsTrue left right tolerance := by
  unfold holds IsTrue
  split
  · -- a NaN on one side
    rename_i hnan
    rw [Bool.or_eq_true] at hnan
    grind
  · rename_i hnan
    rw [Bool.or_eq_true, not_or, Bool.not_eq_true, Bool.not_eq_true] at hnan
    rw [← and_assoc, and_iff_right hnan]
    cases comparison <;> exact decide_eq_true_iff

/-- **What it takes for a rule to mark a cell**, with the formula of the rule, the position
of the column and the name as it is entered in the row. -/
structure Settings.Marks (settings : Settings) (table : Table) (variableColumn : Nat)
    (rule : Rule) (row : Nat) (column : Text) (left right : Float) (formula : Formula)
    (position : Nat) (entered : Text) : Prop where
  active : rule.active = true
  reads : Formula.parse rule.formula = .ok formula
  column_eq : table.columns[position]? = some column
  isValueColumn : position ≠ variableColumn ∧ column ∉ settings.metadataColumns
  reading : ∃ value, (table.cell row position).Reads value
  entered_eq : (table.cell row variableColumn).text? = some entered
  named : Name.canonical entered ≠ []
  resolves : ∀ name ∈ formula.variableNames,
    (table.readings variableColumn position).contains name = true
  left_eq : evaluate formula.left (table.readings variableColumn position) settings.precedence
    = .ok left
  right_eq : evaluate formula.right (table.readings variableColumn position)
    settings.precedence = .ok right
  isTrue : formula.comparison.IsTrue left right settings.tolerance
  covers : settings.target.Covers formula (Name.canonical entered)

theorem Formula.outcome?_eq_some_iff {settings : Settings} {readings : Readings}
    {formula : Formula} {left right : Float} :
    formula.outcome? settings readings = some (left, right) ↔
      (∀ name ∈ formula.variableNames, readings.contains name = true) ∧
        evaluate formula.left readings settings.precedence = .ok left ∧
        evaluate formula.right readings settings.precedence = .ok right ∧
        formula.comparison.holds left right settings.tolerance = true := by
  unfold outcome?
  -- the three questions are asked in this order, and one that fails leaves no outcome
  constructor
  · intro h
    split at h
    · rename_i hall
      split at h
      · rename_i left' right' hleft hright
        split at h
        · rename_i hholds
          cases h
          exact ⟨List.all_eq_true.1 hall, hleft, hright, hholds⟩
        · cases h
      · cases h
    · cases h
  · rintro ⟨hall, hleft, hright, hholds⟩
    rw [if_pos (List.all_eq_true.2 hall), hleft, hright]
    exact if_pos hholds

theorem Table.markedName?_eq_some_iff {table : Table} {variableColumn column row : Nat}
    {name : Text} :
    table.markedName? variableColumn column row = some name ↔
      ((table.cell row column).reading?).isSome = true ∧
        ∃ entered, (table.cell row variableColumn).text? = some entered ∧
          Name.canonical entered ≠ [] ∧ name = Name.canonical entered := by
  unfold markedName?
  -- a row has a name only where its cell has a reading, and the name is not empty
  split
  · rename_i hreading
    rw [rowName?, Option.bind_eq_some_iff]
    refine ⟨fun ⟨entered, hentered, hname⟩ => ⟨hreading, entered, hentered, ?_⟩, ?_⟩
    · dsimp only at hname
      split at hname
      · cases hname
      · rename_i hne
        cases hname
        exact ⟨fun h => hne (List.isEmpty_iff.2 h), rfl⟩
    · rintro ⟨-, entered, hentered, hne, rfl⟩
      refine ⟨entered, hentered, ?_⟩
      dsimp only
      rw [if_neg (fun h => hne (List.isEmpty_iff.1 h))]
  · rename_i hreading
    exact ⟨fun h => (by cases h), fun h => absurd h.1 hreading⟩

theorem Table.lt_length_of_reading {table : Table} {row column : Nat}
    (h : ((table.cell row column).reading?).isSome = true) : row < table.rows.length := by
  by_contra hge
  rw [cell, List.getElem?_eq_none (Nat.le_of_not_lt hge)] at h
  cases h

theorem Table.lt_length_of_markedName? {table : Table} {variableColumn column row : Nat}
    {name : Text} (h : table.markedName? variableColumn column row = some name) :
    row < table.rows.length :=
  lt_length_of_reading (markedName?_eq_some_iff.1 h).1

theorem Table.mem_valueColumns {table : Table} {settings : Settings} {variableColumn : Nat}
    {column : Text × Nat} :
    column ∈ table.valueColumns settings variableColumn ↔
      table.columns[column.2]? = some column.1 ∧ column.2 ≠ variableColumn ∧
        column.1 ∉ settings.metadataColumns := by
  rw [valueColumns, List.mem_filter, List.mem_zipIdx_iff_getElem?]
  simp

theorem HeldRule.covers_iff {settings : Settings} {rule : Rule} {formula : Formula}
    {left right : Float} {name : Text} :
    HeldRule.covers settings.target name ⟨rule.ready settings formula, left, right⟩ = true ↔
      settings.target.Covers formula name := by
  simp only [covers, Rule.ready, Bool.or_eq_true, beq_iff_eq, List.contains_iff_mem,
    List.mem_map]
  cases settings.target with
  | referenced => simp [MarkingTarget.Covers, MarkingTarget.variableNames]
  | leftOperand => simp [MarkingTarget.Covers, MarkingTarget.variableNames]
  | allRows => simp [MarkingTarget.Covers]

/-! ### The whole table -/

/-- The marks of all value columns, one column after the other. -/
def tableMarks (settings : Settings) (rules : List Rule) (table : Table)
    (variableColumn : Nat) (store : FormulaStore) : List Mark :=
  (table.valueColumns settings variableColumn).flatMap
    (columnMarks settings table variableColumn (prepare settings rules store).ready)

/-- **What is reported are the marks of all value columns**, gathered by cell, with any
number of workers and whether or not a rule is ready. -/
theorem mark_eq_ok (settings : Settings) (rules : List Rule) (table : Table)
    (store : FormulaStore) {variableColumn : Nat}
    (hcolumn : table.column? settings.variableColumn = some variableColumn) :
    mark settings rules table store
      = .ok (⟨gather (tableMarks settings rules table variableColumn store),
          (prepare settings rules store).issues⟩, (prepare settings rules store).store) := by
  have hvariable : table.variableColumn settings.variableColumn = .ok variableColumn := by
    rw [Table.variableColumn, hcolumn]
  unfold mark
  rw [hvariable]
  dsimp only
  split
  · -- without a rule that is ready no column is looked at, and none has marks
    rename_i hempty
    have hnone : tableMarks settings rules table variableColumn store = [] := by
      rw [tableMarks, List.isEmpty_iff.1 hempty]
      exact List.flatMap_eq_nil_iff.2 fun column _ =>
        columnMarks_nil settings table variableColumn column
    rw [hnone]
    rfl
  · rw [Schedule.run_eq_map, ← List.flatMap_def]
    rfl

/-- **A mark is what `Settings.Marks` says it is.** -/
theorem mem_tableMarks {settings : Settings} {rules : List Rule} {table : Table}
    {variableColumn : Nat} {store : FormulaStore} {m : Mark} :
    m ∈ tableMarks settings rules table variableColumn store ↔
      ∃ rule ∈ rules, ∃ left right formula position entered,
        settings.Marks table variableColumn rule m.row m.column left right formula position
            entered ∧
          m.detail = HeldRule.detail ⟨rule.ready settings formula, left, right⟩ := by
  simp only [tableMarks, List.mem_flatMap, mem_columnMarks, Table.mem_valueColumns,
    mem_ready_prepare, Table.markedName?_eq_some_iff, Formula.outcome?_eq_some_iff]
  -- each way the parts of a mark are those that `Marks` lists
  constructor
  · rintro ⟨⟨column, position⟩, ⟨hcolumn, hvariable, hmetadata⟩, name, left, right, ready,
      ⟨rule, hrule, hactive, formula, hreads, rfl⟩, -, rfl, ⟨hreading, entered, hentered, hne,
      rfl⟩, ⟨hresolves, hleft, hright, hholds⟩, hcovers, hdetail⟩
    exact ⟨rule, hrule, left, right, formula, position, entered,
      ⟨hactive, hreads, hcolumn, ⟨hvariable, hmetadata⟩, Cell.isSome_reading?_iff.1 hreading,
        hentered, hne, hresolves, hleft, hright, Comparison.holds_iff.1 hholds,
        HeldRule.covers_iff.1 hcovers⟩, hdetail⟩
  · rintro ⟨rule, hrule, left, right, formula, position, entered, h, hdetail⟩
    have hreading := Cell.isSome_reading?_iff.2 h.reading
    exact ⟨(m.column, position), ⟨h.column_eq, h.isValueColumn⟩, _, left, right, _,
      ⟨rule, hrule, h.active, formula, h.reads, rfl⟩, Table.lt_length_of_reading hreading,
      rfl, ⟨hreading, entered, h.entered_eq, h.named, rfl⟩,
      ⟨h.resolves, h.left_eq, h.right_eq, Comparison.holds_iff.2 h.isTrue⟩,
      HeldRule.covers_iff.2 h.covers, hdetail⟩

/-- **What is reported on a table**, by the rules and the table alone. -/
def Settings.report (settings : Settings) (rules : List Rule) (table : Table)
    (variableColumn : Nat) : Report where
  cells := gather ((table.valueColumns settings variableColumn).flatMap
    (columnMarks settings table variableColumn (rules.filterMap (Rule.ready? settings))))
  issues := rules.filterMap Rule.issue?

theorem Settings.cells_report (settings : Settings) (rules : List Rule) (table : Table)
    (variableColumn : Nat) (store : FormulaStore) :
    (settings.report rules table variableColumn).cells
      = gather (tableMarks settings rules table variableColumn store) := by
  rw [tableMarks, (prepare_spec settings rules store).1]
  rfl

/-- **Nothing is reported that no rule has marked.** -/
theorem Settings.exists_marks_of_mem_report {settings : Settings} {rules : List Rule}
    {table : Table} {variableColumn : Nat} {cell : MarkedCell} {detail : Detail}
    (hcell : cell ∈ (settings.report rules table variableColumn).cells)
    (hdetail : detail ∈ cell.details) :
    ∃ rule ∈ rules, ∃ left right formula position entered,
      settings.Marks table variableColumn rule cell.row cell.column left right formula position
          entered ∧
        detail = HeldRule.detail ⟨rule.ready settings formula, left, right⟩ := by
  -- what is reported does not depend on the store, so that an empty one will do
  rw [settings.cells_report rules table variableColumn .empty] at hcell
  obtain ⟨m, hm, hplace, rfl⟩ := exists_mark_of_mem_gather hcell hdetail
  obtain ⟨hrow, hcolumn⟩ := Prod.mk.inj hplace
  rw [← hrow, ← hcolumn]
  exact mem_tableMarks.1 hm

/-- **The store has no influence on what is reported**, and grows by the formulas of the rules
that are switched on. -/
theorem mark_eq_report (settings : Settings) (rules : List Rule) (table : Table)
    (store : FormulaStore) {variableColumn : Nat}
    (hcolumn : table.column? settings.variableColumn = some variableColumn) :
    ∃ store', mark settings rules table store
        = .ok (settings.report rules table variableColumn, store') ∧
      store.GrownBy (Rule.formulas rules) store' := by
  obtain ⟨-, hissues, hgrown⟩ := prepare_spec settings rules store
  refine ⟨(prepare settings rules store).store, ?_, hgrown⟩
  rw [mark_eq_ok settings rules table store hcolumn, hissues,
    ← settings.cells_report rules table variableColumn store]
  rfl

/-- A table without a column of variables is refused, whatever the rules are. -/
theorem mark_eq_error (settings : Settings) (rules : List Rule) (table : Table)
    (store : FormulaStore) (hcolumn : table.column? settings.variableColumn = none) :
    mark settings rules table store = .error (.columnMissing settings.variableColumn) := by
  have hvariable : table.variableColumn settings.variableColumn
      = .error (.columnMissing settings.variableColumn) := by
    rw [Table.variableColumn, hcolumn]
  rw [mark, hvariable]

/-- Two markings of one cell by one rule agree, if the names of columns are distinct. -/
theorem Settings.Marks.unique {settings : Settings} {table : Table}
    (hcolumns : table.columns.Nodup) {variableColumn : Nat} {rule : Rule} {row : Nat}
    {column : Text} {left left' right right' : Float} {formula formula' : Formula}
    {position position' : Nat} {entered entered' : Text}
    (h : settings.Marks table variableColumn rule row column left right formula position
      entered)
    (h' : settings.Marks table variableColumn rule row column left' right' formula' position'
      entered') : formula = formula' ∧ left = left' ∧ right = right' := by
  -- a text reads as one formula, and a column of this name is in one place only
  obtain rfl : formula = formula' := Except.ok.inj (h.reads.symm.trans h'.reads)
  obtain rfl : position = position' := by
    obtain ⟨hlt, -⟩ := List.getElem?_eq_some_iff.1 h.column_eq
    exact (List.getElem?_inj hlt hcolumns).1 (h.column_eq.trans h'.column_eq.symm)
  exact ⟨rfl, Except.ok.inj (h.left_eq.symm.trans h'.left_eq),
    Except.ok.inj (h.right_eq.symm.trans h'.right_eq)⟩

/-- Rules of one identity are one rule, if identities are distinct. -/
theorem Rule.eq_of_id_eq {rules : List Rule} (hids : (rules.map Rule.id).Nodup)
    {rule rule' : Rule} (hrule : rule ∈ rules) (hrule' : rule' ∈ rules)
    (h : rule.id = rule'.id) : rule = rule' :=
  List.inj_on_of_nodup_map hids hrule hrule' h

/-- **A rule marks a cell exactly if `Settings.Marks` says so**, with the values of its two
sides that are meant there. The identities of the rules have to be distinct, and so do the
names of the columns; the store is any. -/
theorem mark_iff_marks (settings : Settings) (rules : List Rule) (table : Table)
    (store : FormulaStore) (variableColumn : Nat) (hids : (rules.map Rule.id).Nodup)
    (hcolumns : table.columns.Nodup)
    (hcolumn : table.column? settings.variableColumn = some variableColumn) :
    ∃ report store', mark settings rules table store = .ok (report, store') ∧
      ∀ rule ∈ rules, ∀ row column left right,
        (∃ cell ∈ report.cells, MarkedCell.rowLabel cell.row = MarkedCell.rowLabel row ∧
            cell.column = column ∧ ∃ detail ∈ cell.details, detail.ruleId = rule.id ∧
              detail.left = left ∧ detail.right = right) ↔
          ∃ formula position entered, settings.Marks table variableColumn rule row column left
            right formula position entered := by
  refine ⟨_, _, mark_eq_ok settings rules table store hcolumn, ?_⟩
  intro rule hrule row column left right
  -- two marks on one cell by one rule are one mark
  have hunique : ∀ m ∈ tableMarks settings rules table variableColumn store,
      ∀ m' ∈ tableMarks settings rules table variableColumn store, m.place = m'.place →
        m.detail.ruleId = m'.detail.ruleId → m.detail = m'.detail := by
    intro m hm m' hm' hplace hid
    obtain ⟨rule₁, hrule₁, l, r, f, p, e, hmarks, hdetail⟩ := mem_tableMarks.1 hm
    obtain ⟨rule₂, hrule₂, l', r', f', p', e', hmarks', hdetail'⟩ := mem_tableMarks.1 hm'
    obtain ⟨hrow, hcol⟩ := Prod.mk.inj hplace
    rw [hdetail, hdetail'] at hid ⊢
    obtain rfl := Rule.eq_of_id_eq hids hrule₁ hrule₂ hid
    rw [← hrow, ← hcol] at hmarks'
    obtain ⟨rfl, rfl, rfl⟩ := hmarks.unique hcolumns hmarks'
    rfl
  constructor
  · -- a detail in a cell was a mark, by the one rule of that identity
    rintro ⟨cell, hcell, hrow, rfl, detail, hdetail, hid, rfl, rfl⟩
    obtain rfl := MarkedCell.rowLabel_injective hrow
    obtain ⟨m, hm, hplace, hmdetail⟩ :=
      (exists_mem_gather hunique).1 ⟨cell, hcell, rfl, hdetail⟩
    obtain ⟨rule', hrule', l, r, formula, position, entered, hmarks, hd⟩ := mem_tableMarks.1 hm
    obtain ⟨hmrow, hmcolumn⟩ := Prod.mk.inj hplace
    rw [hmdetail] at hd
    rw [hd] at hid ⊢
    obtain rfl := Rule.eq_of_id_eq hids hrule' hrule hid
    rw [hmrow, hmcolumn] at hmarks
    exact ⟨formula, position, entered, hmarks⟩
  · -- a mark is kept as a detail of its cell
    rintro ⟨formula, position, entered, hmarks⟩
    obtain ⟨cell, hcell, hplace, hdetail⟩ := (exists_mem_gather hunique).2
      ⟨⟨row, column, HeldRule.detail ⟨rule.ready settings formula, left, right⟩⟩,
        mem_tableMarks.2 ⟨rule, hrule, left, right, formula, position, entered, hmarks, rfl⟩,
        rfl, rfl⟩
    obtain ⟨hrow, hcol⟩ := Prod.mk.inj hplace
    exact ⟨cell, hcell, by rw [hrow], hcol, _, hdetail, rfl, rfl, rfl⟩

/-- A table whose second row ends before the value column, under one rule. -/
theorem mark_iff_marks_of_ragged :
    let rule : Rule := { id := utf8 "1", name := utf8 "Iron", formula := utf8 "Fe > 1" }
    let table : Table := ⟨[utf8 "Variable", utf8 "March"],
      [[.text (utf8 "Fe"), .number 2.0], [.text (utf8 "Mn")]]⟩
    ∃ report store', mark {} [rule] table .empty = .ok (report, store') ∧
      ∀ row column left right,
        (∃ cell ∈ report.cells, MarkedCell.rowLabel cell.row = MarkedCell.rowLabel row ∧
            cell.column = column ∧ ∃ detail ∈ cell.details, detail.ruleId = rule.id ∧
              detail.left = left ∧ detail.right = right) ↔
          ∃ formula position entered, Settings.Marks {} table 0 rule row column left right
            formula position entered := by
  intro rule table
  obtain ⟨report, store', hmark, hmarks⟩ := mark_iff_marks {} [rule] table .empty 0
    (by decide) (by decide) (by decide)
  exact ⟨report, store', hmark, hmarks rule List.mem_cons_self⟩

end AssayRules
