import AssayRules.Proofs.Alike
import AssayRules.Proofs.Reordering
import AssayRules.Proofs.Rows
import Mathlib.Data.Fin.Rev
import Mathlib.Logic.Equiv.Basic

/-!
# The order of rows

A table with its rows in another order is reported on alike: each marked cell moves with its row
and is as it was otherwise, if the names in each value column are apart (`mark_rearrange`).

Names are apart if no two rows of a column have names that agree up to letter case, and each name
is its own canonical spelling (`Table.NamesApart`). The spellings that rows record are apart then,
too (`Table.NamesApart.eq_of_foldCase_eq`), although a row may record two: what is stripped from
a name has no letter case. So nothing is recorded twice, the readings are what the rows record one
after the other, and those of the other table are the same ones in another order
(`Table.Rearranged.readings`).

Of readings only such things are asked that the order makes no difference to
(`Readings.Rearranges`), so the same rules hold, and a row has the same marks wherever it stands.
What is said about a cell is what its own row has to say in the columns of its name
(`detailsAt_columnMarks`), which settles the cells (`perm_gather`).
-/

namespace AssayRules

/-! ### Readings in another order -/

/-- **The same readings in another order**, of spellings that differ in more than case. -/
structure Readings.Rearranges (other readings : Readings) : Prop where
  perm : other.entries.Perm readings.entries
  apart : (readings.entries.map fun entry => entry.1.foldCase).Nodup

namespace Readings.Rearranges

variable {readings other : Readings} {settings : Settings}

theorem find?_eq (h : other.Rearranges readings) (name : Text) :
    other.find? name = readings.find? name := by
  have hfolded : ∀ t, other.folded? t = readings.folded? t := by
    intro t
    rw [folded?, folded?, find?_key_perm h.perm.symm h.apart]
  rw [find?, find?, recorded?_of_perm h.perm, recorded?_of_perm h.perm, hfolded]

theorem evaluate_eq (h : other.Rearranges readings) (expression : Text) (mode : Precedence) :
    evaluate expression other mode = evaluate expression readings mode :=
  evaluate_of_find?_eq h.find?_eq (entriesLongestFirst_of_perm h.perm) expression mode

/-- **The same rules hold.** -/
theorem heldRules_eq (h : other.Rearranges readings) (ready : List ReadyRule) :
    heldRules settings ready other = heldRules settings ready readings := by
  have hcontains : other.contains = readings.contains := by
    funext name
    rw [contains, contains, h.find?_eq]
  unfold heldRules Formula.outcome?
  simp only [hcontains, h.evaluate_eq]

end Readings.Rearranges

namespace Table

/-! ### Names that are apart -/

/-- **The names of the rows with a reading in a column are apart**: they are UTF-8 and their own
canonical spellings, and no two agree up to letter case. -/
structure NamesApart (table : Table) (variableColumn column : Nat) : Prop where
  isUtf8 : ∀ row name, table.markedName? variableColumn column row = some name → name.IsUtf8
  canonical : ∀ row name, table.markedName? variableColumn column row = some name →
    Name.canonical name = name
  apart : ∀ row row' name name', table.markedName? variableColumn column row = some name →
    table.markedName? variableColumn column row' = some name' →
    name.foldCase = name'.foldCase → row = row'

variable {table : Table} {variableColumn column row row' : Nat}

namespace NamesApart

/-- **What rows record is apart**, the two spellings of one row included. -/
theorem eq_of_foldCase_eq (h : table.NamesApart variableColumn column) {spelling spelling' : Text}
    (hrow : table.Records variableColumn column spelling row)
    (hrow' : table.Records variableColumn column spelling' row')
    (hfold : spelling.foldCase = spelling'.foldCase) : row = row' ∧ spelling = spelling' := by
  obtain ⟨name, stripped, hname, rfl, hstripped⟩ := hrow.exists_name
  obtain ⟨name', stripped', hname', rfl, hstripped'⟩ := hrow'.exists_name
  obtain ⟨hnames, rfl⟩ := Name.foldCase_eq_of_stripped (h.isUtf8 _ _ hname) (h.canonical _ _ hname)
    (h.isUtf8 _ _ hname') (h.canonical _ _ hname') hstripped hstripped' hfold
  obtain rfl := h.apart _ _ _ _ hname hname' hnames
  obtain rfl : name = name' := Option.some.inj (hname.symm.trans hname')
  exact ⟨rfl, rfl⟩

theorem nodup_flatMap (h : table.NamesApart variableColumn column) (rows : Nat) :
    (((List.range rows).flatMap (table.rowReadings variableColumn column)).map
      fun entry => entry.1.foldCase).Nodup := by
  -- what is compared are the folded spellings of the rows
  have hrecords : ∀ {row t}, t ∈ (table.rowReadings variableColumn column row).map
      (fun entry => entry.1.foldCase) →
      ∃ spelling, table.Records variableColumn column spelling row ∧ spelling.foldCase = t := by
    intro row t ht
    obtain ⟨entry, hentry, rfl⟩ := List.mem_map.1 ht
    exact ⟨_, List.mem_map_of_mem hentry, rfl⟩
  rw [List.map_flatMap, List.nodup_flatMap]
  constructor
  · intro row _
    -- a row records no spelling twice, and its two spellings are apart
    have hspellings : ∀ s, table.Records variableColumn column s row →
        ∀ t, table.Records variableColumn column t row → s.foldCase = t.foldCase → s = t :=
      fun s hs t ht hfold => (h.eq_of_foldCase_eq hs ht hfold).2
    have hfolded := (nodup_rowReadings table variableColumn column row).map_on hspellings
    rwa [List.map_map] at hfolded
  · -- two rows with a spelling in common up to case would be one row
    refine List.nodup_range.imp fun {row row'} hne t ht ht' => ?_
    obtain ⟨spelling, hspelling, rfl⟩ := hrecords ht
    obtain ⟨spelling', hspelling', hfold⟩ := hrecords ht'
    exact hne (h.eq_of_foldCase_eq hspelling hspelling' hfold.symm).1

/-- **Nothing is recorded twice**: the readings are what the rows record, one after the other. -/
theorem entries_readings (h : table.NamesApart variableColumn column) :
    (table.readings variableColumn column).entries
      = (List.range table.rows.length).flatMap (table.rowReadings variableColumn column) := by
  -- no spelling comes twice, so that each entry is recorded behind the others
  have hnodup : (((List.range table.rows.length).flatMap
      (table.rowReadings variableColumn column)).map Prod.fst).Nodup := by
    refine List.Nodup.of_map Text.foldCase ?_
    rw [List.map_map]
    exact h.nodup_flatMap _
  calc (table.readings variableColumn column).entries
      = Readings.empty.entries ++ (List.range table.rows.length).flatMap
          (table.rowReadings variableColumn column) :=
        Readings.entries_foldl_set hnodup fun _ _ => List.not_mem_nil
    _ = _ := List.nil_append _

end NamesApart

/-! ### Tables with their rows rearranged -/

/-- **A table with its rows rearranged**: what was in the row `r` is in the row `σ r`. -/
def rearrange (table : Table) (σ : Equiv.Perm (Fin table.rows.length)) : Table :=
  { table with rows := List.ofFn fun i => table.rows.get (σ.symm i) }

/-- Where a row goes. Rows that the table does not have stay where they are. -/
def moveRow (table : Table) (σ : Equiv.Perm (Fin table.rows.length)) : Equiv.Perm Nat :=
  σ.extendDomain Fin.equivSubtype

theorem moveRow_of_lt {σ : Equiv.Perm (Fin table.rows.length)} (h : row < table.rows.length) :
    table.moveRow σ row = σ ⟨row, h⟩ :=
  Equiv.Perm.extendDomain_apply_subtype σ Fin.equivSubtype h

/-- **Two tables of the same rows**, with `σ` taking the rows of the one to those of the other. -/
structure Rearranged (σ : Equiv.Perm Nat) (table table' : Table) : Prop where
  columns_eq : table'.columns = table.columns
  row_eq : ∀ row, table'.rows[σ row]? = table.rows[row]?

theorem rearranged_rearrange (σ : Equiv.Perm (Fin table.rows.length)) :
    Rearranged (table.moveRow σ) table (table.rearrange σ) where
  columns_eq := rfl
  row_eq row := by
    rw [rearrange, List.getElem?_ofFn]
    -- rows behind the table stay where they are
    by_cases hrow : row < table.rows.length
    · have hmoved : table.moveRow σ row < table.rows.length := by
        rw [moveRow_of_lt hrow]
        exact (σ ⟨row, hrow⟩).isLt
      have hback : σ.symm ⟨table.moveRow σ row, hmoved⟩ = ⟨row, hrow⟩ :=
        σ.symm_apply_eq.2 (Fin.ext (moveRow_of_lt hrow))
      rw [dif_pos hmoved, hback, List.getElem?_eq_getElem hrow, List.get_eq_getElem]
    · have hstays : table.moveRow σ row = row :=
        Equiv.Perm.extendDomain_apply_not_subtype σ Fin.equivSubtype hrow
      rw [hstays, dif_neg hrow, List.getElem?_eq_none (Nat.le_of_not_lt hrow)]

namespace Rearranged

variable {σ : Equiv.Perm Nat} {table' : Table}

theorem cell_eq (h : Rearranged σ table table') (row column : Nat) :
    table'.cell (σ row) column = table.cell row column := by
  rw [cell, cell, h.row_eq]

theorem markedName?_eq (h : Rearranged σ table table') (variableColumn column row : Nat) :
    table'.markedName? variableColumn column (σ row)
      = table.markedName? variableColumn column row := by
  unfold markedName? rowName?
  rw [h.cell_eq, h.cell_eq]

theorem rowReadings_eq (h : Rearranged σ table table') (variableColumn column row : Nat) :
    table'.rowReadings variableColumn column (σ row)
      = table.rowReadings variableColumn column row := by
  unfold rowReadings
  rw [h.cell_eq, h.cell_eq]

theorem lt_length_iff (h : Rearranged σ table table') (row : Nat) :
    σ row < table'.rows.length ↔ row < table.rows.length := by
  rw [← not_iff_not, Nat.not_lt, Nat.not_lt, ← List.getElem?_eq_none_iff,
    ← List.getElem?_eq_none_iff, h.row_eq]

theorem perm_range (h : Rearranged σ table table') :
    (List.range table'.rows.length).Perm ((List.range table.rows.length).map σ) := by
  rw [List.perm_ext_iff_of_nodup List.nodup_range (List.nodup_range.map σ.injective)]
  intro row
  obtain ⟨row, rfl⟩ := σ.surjective row
  rw [List.mem_range, List.mem_map_of_injective σ.injective, List.mem_range, h.lt_length_iff]

/-- Names that are apart are so in any order. -/
theorem namesApart (h : Rearranged σ table table')
    (hnames : table.NamesApart variableColumn column) :
    table'.NamesApart variableColumn column := by
  -- every row of the one table is a row of the other
  have hmarked : ∀ row, table'.markedName? variableColumn column row
      = table.markedName? variableColumn column (σ.symm row) := by
    intro row
    rw [← h.markedName?_eq, Equiv.apply_symm_apply]
  -- so each condition on the one table is that on the other, at another row
  constructor
  · intro row name hname
    rw [hmarked] at hname
    exact hnames.isUtf8 _ _ hname
  · intro row name hname
    rw [hmarked] at hname
    exact hnames.canonical _ _ hname
  · intro row row' name name' hname hname' hfold
    rw [hmarked] at hname hname'
    exact σ.symm.injective (hnames.apart _ _ _ _ hname hname' hfold)

/-- **The same readings in another order.** -/
theorem readings (h : Rearranged σ table table')
    (hnames : table.NamesApart variableColumn column) :
    (table'.readings variableColumn column).Rearranges (table.readings variableColumn column) := by
  constructor
  · -- the rows of the one table, in the order of the other, record the same entries
    have hmoved : ((List.range table.rows.length).map σ).flatMap
          (table'.rowReadings variableColumn column)
        = (List.range table.rows.length).flatMap (table.rowReadings variableColumn column) := by
      rw [List.flatMap_map]
      exact List.flatMap_congr fun row _ => h.rowReadings_eq variableColumn column row
    rw [(h.namesApart hnames).entries_readings, hnames.entries_readings, ← hmoved]
    exact h.perm_range.flatMap_right _
  · rw [hnames.entries_readings]
    exact hnames.nodup_flatMap _

end Rearranged

end Table

/-! ### Marks -/

/-- **A mark that moves with its row.** -/
def Mark.move (σ : Equiv.Perm Nat) (mark : Mark) : Mark := { mark with row := σ mark.row }

/-- **A marked cell that moves with its row.** -/
def MarkedCell.move (σ : Equiv.Perm Nat) (cell : MarkedCell) : MarkedCell :=
  { cell with row := σ cell.row }

/-- Where a place goes. -/
def movePlace (σ : Equiv.Perm Nat) (place : Nat × Text) : Nat × Text := (σ place.1, place.2)

section

variable {σ : Equiv.Perm Nat} {settings : Settings} {table table' : Table}
  {variableColumn : Nat} {ready : List ReadyRule} {held : List HeldRule}

theorem movePlace_injective (σ : Equiv.Perm Nat) : Function.Injective (movePlace σ) :=
  σ.injective.prodMap Function.injective_id

theorem detailsAt_map_move (marks : List Mark) (place : Nat × Text) :
    detailsAt (marks.map (Mark.move σ)) (movePlace σ place) = detailsAt marks place := by
  have hplace : ∀ m : Mark, (m.move σ).place = movePlace σ place ↔ m.place = place :=
    fun m => (movePlace_injective σ).eq_iff (a := m.place)
  unfold detailsAt
  rw [List.filter_map, List.map_map]
  simp only [Function.comp_def, beq_eq_decide, hplace]
  rfl

/-- **A row has the same marks** wherever it stands. -/
theorem Table.Rearranged.rowMarks_eq (h : Table.Rearranged σ table table') (column : Text × Nat)
    (row : Nat) : rowMarks settings table' variableColumn held column (σ row)
      = (rowMarks settings table variableColumn held column row).map (Mark.move σ) := by
  unfold rowMarks
  rw [h.markedName?_eq]
  split
  · rw [List.map_map]
    rfl
  · rfl

/-- What a list says of one element alone is what is said of this element. -/
theorem flatMap_eq_of_unique {α β : Type} [DecidableEq α] {l : List α} {f : α → List β} {a : α}
    (hl : l.Nodup) (hother : ∀ b, b ≠ a → f b = []) (hmissing : a ∉ l → f a = []) :
    l.flatMap f = f a := by
  -- down to the one element that gives something, as all others give nothing
  induction l with
  | nil => exact (hmissing List.not_mem_nil).symm
  | cons b l ih =>
    obtain ⟨hb, hl⟩ := List.nodup_cons.1 hl
    rw [List.flatMap_cons]
    by_cases hba : b = a
    · subst hba
      have hrest : l.flatMap f = [] := List.flatMap_eq_nil_iff.2 fun c hc =>
        hother c fun hcb => hb (hcb ▸ hc)
      rw [hrest, List.append_nil]
    · rw [hother b hba, List.nil_append]
      exact ih hl fun ha => hmissing fun hmem =>
        (List.mem_cons.1 hmem).elim (fun hab => hba hab.symm) ha

/-- **What is said about a cell in one column** is said in its row. -/
theorem detailsAt_columnMarks (column : Text × Nat) (row : Nat) (name : Text) :
    detailsAt (columnMarks settings table variableColumn ready column) (row, name)
      = detailsAt (rowMarks settings table variableColumn
          (heldRules settings ready (table.readings variableColumn column.2)) column row)
          (row, name) := by
  rw [columnMarks_eq_flatMap, detailsAt_flatMap]
  refine flatMap_eq_of_unique List.nodup_range (fun r hr => ?_) fun hmissing => ?_
  · -- marks in another row are not on this place
    refine detailsAt_eq_nil fun hmem => ?_
    obtain ⟨m, hm, hplace⟩ := List.mem_map.1 hmem
    rw [place_of_mem_rowMarks hm] at hplace
    exact hr (Prod.mk.inj hplace).1
  · -- a row that is not there has no name to be marked
    have hnone : table.markedName? variableColumn column.2 row = none := by
      cases hname : table.markedName? variableColumn column.2 row with
      | none => rfl
      | some name =>
        exact absurd (List.mem_range.2 (Table.lt_length_of_markedName? hname)) hmissing
    unfold rowMarks
    rw [hnone]
    rfl

/-- **The same is said about a cell**, in the column of its name and the row it has moved to. -/
theorem Table.Rearranged.detailsAt_columnMarks_eq (h : Table.Rearranged σ table table')
    (column : Text × Nat) (hnames : table.NamesApart variableColumn column.2)
    (place : Nat × Text) :
    detailsAt (columnMarks settings table' variableColumn ready column) (movePlace σ place)
      = detailsAt (columnMarks settings table variableColumn ready column) place := by
  obtain ⟨row, name⟩ := place
  rw [movePlace, detailsAt_columnMarks, detailsAt_columnMarks, h.rowMarks_eq,
    (h.readings hnames).heldRules_eq]
  exact detailsAt_map_move _ (row, name)

/-! ### Cells -/

theorem mem_map_place_iff {marks : List Mark} {place : Nat × Text} :
    place ∈ marks.map Mark.place ↔ detailsAt marks place ≠ [] := by
  refine ⟨fun hmem hnil => ?_, fun hne => ?_⟩
  · obtain ⟨m, hm, hplace⟩ := List.mem_map.1 hmem
    have hdetail := mem_detailsAt.2 ⟨m, hm, hplace, rfl⟩
    rw [hnil] at hdetail
    cases hdetail
  · by_contra hmem
    exact hne (detailsAt_eq_nil hmem)

/-- **Cells move with their rows** if what is said about each of them does. -/
theorem perm_gather {marks marks' : List Mark}
    (h : ∀ place, detailsAt marks' (movePlace σ place) = detailsAt marks place) :
    (gather marks').Perm ((gather marks).map (MarkedCell.move σ)) := by
  have hplaces : (marks'.map Mark.place).eraseDups.Perm
      ((marks.map Mark.place).eraseDups.map (movePlace σ)) := by
    rw [List.perm_ext_iff_of_nodup nodup_eraseDups
      (nodup_eraseDups.map (movePlace_injective σ))]
    intro place
    -- every place is one that another has moved to
    obtain ⟨place, rfl⟩ : ∃ before, movePlace σ before = place :=
      ⟨(σ.symm place.1, place.2), Prod.ext (σ.apply_symm_apply _) rfl⟩
    rw [List.mem_map_of_injective (movePlace_injective σ), List.mem_eraseDups,
      List.mem_eraseDups, mem_map_place_iff, mem_map_place_iff, h]
  -- each cell goes with its place, and says what it said
  have hcells : ((marks.map Mark.place).eraseDups.map (movePlace σ)).map
        (fun place => MarkedCell.ofDetails place (detailsAt marks' place))
      = (gather marks).map (MarkedCell.move σ) := by
    rw [gather, List.map_map, List.map_map]
    refine List.map_congr_left fun place _ => ?_
    show MarkedCell.ofDetails (movePlace σ place) (detailsAt marks' (movePlace σ place))
      = (MarkedCell.ofDetails place (detailsAt marks place)).move σ
    rw [h]
    rfl
  rw [← hcells]
  exact hplaces.map _

end

/-! ### The whole table -/

/-- **The order of rows does not matter**, if the names of the rows with a reading are apart in
each value column: every marked cell moves with its row and keeps its color, its message, its
rules and what they say, no cell is there twice and there is no other cell, and the issues are
the same. The stores are any. -/
theorem mark_rearrange (settings : Settings) (rules : List Rule) (table : Table)
    (σ : Equiv.Perm (Fin table.rows.length)) (store store' : FormulaStore) (variableColumn : Nat)
    (hcolumn : table.column? settings.variableColumn = some variableColumn)
    (hnames : ∀ column ∈ table.valueColumns settings variableColumn,
      table.NamesApart variableColumn column.2) :
    ∃ report report' after after',
      mark settings rules table store = .ok (report, after) ∧
        mark settings rules (table.rearrange σ) store' = .ok (report', after') ∧
        report'.cells.Perm (report.cells.map (MarkedCell.move (table.moveRow σ))) ∧
        (report'.cells.map fun cell => (cell.row, cell.column)).Nodup ∧
        report'.issues = report.issues := by
  have hrearranged := table.rearranged_rearrange σ
  obtain ⟨after, hmark, -⟩ := mark_eq_report settings rules table store hcolumn
  obtain ⟨after', hmark', -⟩ := mark_eq_report settings rules (table.rearrange σ) store' hcolumn
  refine ⟨_, _, after, after', hmark, hmark', ?_, ?_, rfl⟩
  · refine perm_gather fun place => ?_
    rw [detailsAt_flatMap, detailsAt_flatMap]
    -- the value columns are the same ones
    exact List.flatMap_congr fun column hvalue =>
      hrearranged.detailsAt_columnMarks_eq column (hnames column hvalue) place
  · show ((gather _).map _).Nodup
    rw [map_place_gather]
    exact nodup_eraseDups

/-- Two rows the other way round, one of them entered with a comma, so that it records two
spellings. -/
theorem mark_rearrange_of_reversed :
    let rule : Rule := { id := utf8 "1", name := utf8 "Iron", formula := utf8 "Fe > Mn" }
    let table : Table := ⟨[utf8 "Variable", utf8 "March"],
      [[.text (utf8 "Fe,"), .number 2.0], [.text (utf8 "Mn"), .number 1.0]]⟩
    ∃ report report' after after',
      mark {} [rule] table .empty = .ok (report, after) ∧
        mark {} [rule] (table.rearrange Fin.revPerm) .empty = .ok (report', after') ∧
        report'.cells.Perm (report.cells.map (MarkedCell.move (table.moveRow Fin.revPerm))) ∧
        (report'.cells.map fun cell => (cell.row, cell.column)).Nodup ∧
        report'.issues = report.issues := by
  intro rule table
  have hnames : ∀ row name, table.markedName? 0 1 row = some name →
      row = 0 ∧ name = utf8 "Fe" ∨ row = 1 ∧ name = utf8 "Mn" := by
    intro row name hname
    have hrow : row < 2 := Table.lt_length_of_markedName? hname
    have hfirst : table.markedName? 0 1 0 = some (utf8 "Fe") := by decide +kernel
    have hsecond : table.markedName? 0 1 1 = some (utf8 "Mn") := by decide +kernel
    obtain rfl | rfl : row = 0 ∨ row = 1 := by omega
    · exact Or.inl ⟨rfl, Option.some.inj (hname.symm.trans hfirst)⟩
    · exact Or.inr ⟨rfl, Option.some.inj (hname.symm.trans hsecond)⟩
  have hapart : table.NamesApart 0 1 := by
    refine ⟨fun row name hname => ?_, fun row name hname => ?_,
      fun row row' name name' hname hname' hfold => ?_⟩
    · rcases hnames row name hname with ⟨-, rfl⟩ | ⟨-, rfl⟩ <;> exact ⟨_, rfl⟩
    · rcases hnames row name hname with ⟨-, rfl⟩ | ⟨-, rfl⟩ <;> decide
    · rcases hnames row name hname with ⟨rfl, rfl⟩ | ⟨rfl, rfl⟩ <;>
        rcases hnames row' name' hname' with ⟨rfl, rfl⟩ | ⟨rfl, rfl⟩
      · rfl
      · exact absurd hfold (by decide)
      · exact absurd hfold (by decide)
      · rfl
  have hcolumns : table.valueColumns {} 0 = [(utf8 "March", 1)] := by decide
  exact mark_rearrange {} [rule] table Fin.revPerm .empty .empty 0 (by decide)
    (hcolumns ▸ List.forall_mem_singleton.2 hapart)

end AssayRules
