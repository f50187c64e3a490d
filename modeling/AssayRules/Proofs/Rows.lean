import AssayRules.Proofs.Canonical
import AssayRules.Proofs.Marking
import Mathlib.Data.Nat.Find

/-!
# What rows record

A row records its reading under the canonical name and under the name as it is entered, where
this is another spelling (`Table.records_iff`). So what is recorded is a name with something
behind it that was stripped (`Table.Records.exists_name`).

One row after the other, a spelling has the reading of the last row that records it
(`Table.recorded?_readings`): a row that records it gives it its own reading, and any other row
leaves it alone (`Table.recorded?_foldl_rowReadings`).

A variable is looked up by its spelling first, and a name is recorded by rows of several
spellings. What answers for a variable is therefore the last row of its very spelling, and only
if there is none the last row of its name (`Table.find?_readings`). The two are one row if the
last row of the name has the spelling too.
-/

namespace AssayRules

namespace Table

variable {table : Table} {variableColumn column row : Nat} {spelling : Text}

/-! ### One row -/

/-- **A row records a spelling.** -/
def Records (table : Table) (variableColumn column : Nat) (spelling : Text) (row : Nat) : Prop :=
  spelling ∈ (table.rowReadings variableColumn column row).map Prod.fst

instance (table : Table) (variableColumn column : Nat) (spelling : Text) :
    DecidablePred (table.Records variableColumn column spelling) :=
  fun row => inferInstanceAs
    (Decidable (spelling ∈ (table.rowReadings variableColumn column row).map Prod.fst))

/-- **What a row records** is its reading, under each of its two spellings. -/
theorem mem_rowReadings {entry : Text × Float} :
    entry ∈ table.rowReadings variableColumn column row ↔
      (table.cell row column).reading? = some entry.2 ∧
        ∃ entered, (table.cell row variableColumn).text? = some entered ∧
          Name.canonical entered ≠ [] ∧
          (entry.1 = Name.canonical entered ∨ entry.1 = entered.trim) := by
  -- what is recorded depends on two cells, on the name being empty and on the two spellings
  obtain ⟨spelling, x⟩ := entry
  unfold rowReadings
  split
  · rename_i entered value hentered hvalue
    rw [hentered, hvalue]
    dsimp only
    simp only [Option.some.injEq, exists_eq_left', List.isEmpty_iff, ne_eq]
    by_cases hempty : Name.canonical entered = []
    · simp [hempty]
    · rw [if_neg hempty]
      split
      · rename_i htrim
        simp only [htrim, List.mem_singleton, Prod.mk.injEq, or_self]
        grind
      · simp only [List.mem_cons, List.not_mem_nil, Prod.mk.injEq, or_false]
        grind
  · -- without a text, or without a reading
    rename_i hnone
    refine iff_of_false List.not_mem_nil ?_
    rintro ⟨hvalue, entered, hentered, -⟩
    exact hnone entered x hentered hvalue

/-- **The two spellings of a row**: its name, and what is entered. -/
theorem records_iff :
    table.Records variableColumn column spelling row ↔
      ∃ entered, (table.cell row variableColumn).text? = some entered ∧
        table.markedName? variableColumn column row = some (Name.canonical entered) ∧
        (spelling = Name.canonical entered ∨ spelling = entered.trim) := by
  simp only [Records, List.mem_map, mem_rowReadings, markedName?_eq_some_iff]
  -- the name of the row is what it was entered as, so that both sides speak of one text
  constructor
  · rintro ⟨⟨spelling, x⟩, ⟨hvalue, entered, hentered, hne, hspelling⟩, rfl⟩
    exact ⟨entered, hentered, ⟨Option.isSome_of_eq_some hvalue, entered, hentered, hne, rfl⟩,
      hspelling⟩
  · rintro ⟨entered, hentered, ⟨hreading, entered', hentered', hne, -⟩, hspelling⟩
    obtain rfl : entered = entered' := Option.some.inj (hentered.symm.trans hentered')
    obtain ⟨x, hx⟩ := Option.isSome_iff_exists.1 hreading
    exact ⟨(spelling, x), ⟨hx, entered, hentered, hne, hspelling⟩, rfl⟩

/-- A row records its name. -/
theorem records_of_markedName? {name : Text}
    (h : table.markedName? variableColumn column row = some name) :
    table.Records variableColumn column name row := by
  obtain ⟨-, entered, hentered, -, rfl⟩ := markedName?_eq_some_iff.1 h
  exact records_iff.2 ⟨entered, hentered, h, Or.inl rfl⟩

/-- **What a row records is its name**, with something behind it that is stripped. -/
theorem Records.exists_name (h : table.Records variableColumn column spelling row) :
    ∃ name stripped, table.markedName? variableColumn column row = some name ∧
      spelling = name ++ stripped ∧ ∀ c ∈ stripped, Name.isTrailing c = true := by
  obtain ⟨entered, -, hname, rfl | rfl⟩ := records_iff.1 h
  · exact ⟨_, [], hname, (List.append_nil _).symm, by simp⟩
  · obtain ⟨stripped, htrim, hstripped⟩ := Name.exists_stripped entered
    exact ⟨_, stripped, hname, htrim, hstripped⟩

/-- A row that records a spelling has the canonical spelling of it for its name, if its name is
its own canonical spelling. -/
theorem Records.markedName?_eq (h : table.Records variableColumn column spelling row)
    (hnames : ∀ name, table.markedName? variableColumn column row = some name →
      Name.canonical name = name) :
    table.markedName? variableColumn column row = some (Name.canonical spelling) := by
  obtain ⟨entered, -, hname, rfl | rfl⟩ := records_iff.1 h
  · rw [hnames _ hname, hname]
  · rw [Name.canonical_trim, hname]

theorem Records.isSome_reading (h : table.Records variableColumn column spelling row) :
    ((table.cell row column).reading?).isSome = true := by
  obtain ⟨entered, -, hname, -⟩ := records_iff.1 h
  exact (markedName?_eq_some_iff.1 hname).1

theorem Records.lt_length (h : table.Records variableColumn column spelling row) :
    row < table.rows.length :=
  lt_length_of_reading h.isSome_reading

/-- A row records no spelling twice. -/
theorem nodup_rowReadings (table : Table) (variableColumn column i : Nat) :
    ((table.rowReadings variableColumn column i).map Prod.fst).Nodup := by
  rw [rowReadings]
  split
  · dsimp only
    split_ifs with hempty hname
    · exact List.nodup_nil
    · exact List.nodup_singleton _
    · refine List.nodup_cons.2 ⟨?_, List.nodup_singleton _⟩
      exact fun hmem => hname (List.mem_singleton.1 hmem).symm
  · exact List.nodup_nil

/-! ### All rows -/

theorem mem_spellings_readings :
    spelling ∈ (table.readings variableColumn column).spellings ↔
      ∃ row, table.Records variableColumn column spelling row := by
  simp only [readings, Readings.mem_spellings_ofList, List.map_flatMap, List.mem_flatMap,
    List.mem_range]
  constructor
  · rintro ⟨row, -, h⟩
    exact ⟨row, h⟩
  · rintro ⟨row, h⟩
    exact ⟨row, h.lt_length, h⟩

/-- **What one row does to a spelling**: it gives it its own reading, or leaves it alone. -/
theorem recorded?_foldl_rowReadings (readings : Readings) :
    ((table.rowReadings variableColumn column row).foldl
        (fun recorded entry => recorded.set entry.1 entry.2) readings).recorded? spelling
      = if table.Records variableColumn column spelling row
        then (table.cell row column).reading? else readings.recorded? spelling := by
  exact Readings.recorded?_foldl_set (fun e he => (mem_rowReadings.1 he).1) readings

/-- **The last row** of which something is true. -/
def LastRow (p : Nat → Prop) (row : Nat) : Prop := p row ∧ ∀ later, row < later → ¬ p later

/-- The readings of the first rows of a table. -/
def readingsUpTo (table : Table) (variableColumn column rows : Nat) : Readings :=
  .ofList ((List.range rows).flatMap (table.rowReadings variableColumn column))

theorem recorded?_readingsUpTo_succ (rows : Nat) :
    (table.readingsUpTo variableColumn column (rows + 1)).recorded? spelling
      = if table.Records variableColumn column spelling rows
        then (table.cell rows column).reading?
        else (table.readingsUpTo variableColumn column rows).recorded? spelling := by
  rw [← recorded?_foldl_rowReadings, readingsUpTo, readingsUpTo, List.range_succ,
    List.flatMap_append, List.flatMap_singleton, Readings.ofList, List.foldl_append]
  rfl

/-- **A spelling has the reading of the last row that records it.** -/
theorem recorded?_readings (h : LastRow (table.Records variableColumn column spelling) row) :
    (table.readings variableColumn column).recorded? spelling
      = (table.cell row column).reading? := by
  -- by the number of rows that have been read, from this one on
  have hrows : ∀ rows, row < rows →
      (table.readingsUpTo variableColumn column rows).recorded? spelling
        = (table.cell row column).reading? := by
    intro rows hlt
    induction rows, hlt using Nat.le_induction with
    | base => rw [recorded?_readingsUpTo_succ, if_pos h.1]
    | succ rows hlt ih => rw [recorded?_readingsUpTo_succ, if_neg (h.2 rows hlt), ih]
  exact hrows _ h.1.lt_length

theorem recorded?_readings_eq_none
    (h : ∀ row, ¬ table.Records variableColumn column spelling row) :
    (table.readings variableColumn column).recorded? spelling = none := by
  rw [← Option.not_isSome_iff_eq_none, Readings.isSome_recorded?_iff, mem_spellings_readings]
  exact not_exists.2 h

/-- If some row records a spelling, some row is the last to do so. -/
theorem exists_lastRow (h : table.Records variableColumn column spelling row) :
    ∃ last, LastRow (table.Records variableColumn column spelling) last := by
  refine ⟨Nat.findGreatest (table.Records variableColumn column spelling) table.rows.length,
    Nat.findGreatest_spec h.lt_length.le h, fun later hlater hrecords => ?_⟩
  exact Nat.findGreatest_is_greatest hlater hrecords.lt_length.le hrecords

/-! ### Looking up -/

/-- **The row that answers for a variable**: the last one that records its very spelling, or the
last one that records its canonical spelling if there is none. -/
def Answers (table : Table) (variableColumn column : Nat) (s : Text) (row : Nat) : Prop :=
  LastRow (table.Records variableColumn column s) row ∨
    (∀ r, ¬ table.Records variableColumn column s r) ∧
      LastRow (table.Records variableColumn column (Name.canonical s)) row

variable {s : Text}

theorem find?_of_answers (h : table.Answers variableColumn column s row) :
    (table.readings variableColumn column).find? s = (table.cell row column).reading? := by
  rw [Readings.find?]
  rcases h with hspelling | ⟨hnone, hname⟩
  · rw [recorded?_readings hspelling]
    exact Option.or_of_isSome hspelling.1.isSome_reading
  · rw [recorded?_readings_eq_none hnone, Option.none_or, recorded?_readings hname]
    exact Option.or_of_isSome hname.1.isSome_reading

/-- **What a variable is found to be**, if there are rows of its name: the reading of the row
that answers for it. This is the last row of its name, if names are their own canonical
spellings and the last row has the spelling of the variable as soon as any row has it. -/
theorem find?_readings
    (h : LastRow (fun r => table.markedName? variableColumn column r = some (Name.canonical s))
      row) :
    (∃ r x, table.Answers variableColumn column s r ∧
      (table.cell r column).reading? = some x ∧
      (table.readings variableColumn column).find? s = some x) ∧
    ((∀ r name, table.markedName? variableColumn column r = some name →
        Name.canonical name = name) →
      (∀ r, table.Records variableColumn column s r →
        table.Records variableColumn column s row) →
      (table.readings variableColumn column).find? s = (table.cell row column).reading?) := by
  obtain ⟨hrow, hlast⟩ := h
  have hname := records_of_markedName? hrow
  constructor
  · -- some row answers: the last of this spelling, or else the last of the name
    have hanswers : ∃ r, table.Answers variableColumn column s r := by
      by_cases hsome : ∃ r, table.Records variableColumn column s r
      · obtain ⟨r, hr⟩ := hsome
        obtain ⟨last, hspelling⟩ := exists_lastRow hr
        exact ⟨last, Or.inl hspelling⟩
      · obtain ⟨last, hcanonical⟩ := exists_lastRow hname
        exact ⟨last, Or.inr ⟨not_exists.1 hsome, hcanonical⟩⟩
    -- its cell has a reading, and this is what is found
    obtain ⟨r, hr⟩ := hanswers
    have hreading : ((table.cell r column).reading?).isSome = true := by
      rcases hr with hspelling | ⟨-, hcanonical⟩
      · exact hspelling.1.isSome_reading
      · exact hcanonical.1.isSome_reading
    obtain ⟨x, hx⟩ := Option.isSome_iff_exists.1 hreading
    exact ⟨r, x, hr, hx, (find?_of_answers hr).trans hx⟩
  · intro hcanonical hspelling
    -- a later row of either spelling would be a later row of the name
    have hlater : ∀ t, Name.canonical t = Name.canonical s → ∀ later, row < later →
        ¬ table.Records variableColumn column t later := by
      intro t ht later hlt hrecords
      refine hlast later hlt ?_
      show table.markedName? variableColumn column later = some (Name.canonical s)
      rw [hrecords.markedName?_eq (hcanonical later), ht]
    refine find?_of_answers ?_
    by_cases hsome : ∃ r, table.Records variableColumn column s r
    · obtain ⟨r, hr⟩ := hsome
      exact Or.inl ⟨hspelling r hr, hlater s rfl⟩
    · exact Or.inr ⟨not_exists.1 hsome, hname, hlater _ (hcanonical row _ hrow)⟩

/-- A row without the comma after a row with it: the spelling with the comma keeps the reading
that the other spelling has lost. -/
theorem find?_readings_of_comma :
    let table : Table := ⟨[utf8 "Variable", utf8 "A"],
      [[.text (utf8 "Fe,"), .number 1.0], [.text (utf8 "Fe"), .number 2.0]]⟩
    LastRow (fun r => table.markedName? 0 1 r = some (Name.canonical (utf8 "Fe,"))) 1 ∧
      (table.cell 1 1).reading? = some 2.0 ∧
      (table.readings 0 1).find? (utf8 "Fe") = some 2.0 ∧
      (table.readings 0 1).find? (utf8 "Fe,") = some 1.0 := by
  intro table
  have hlast : LastRow
      (fun r => table.markedName? 0 1 r = some (Name.canonical (utf8 "Fe,"))) 1 := by
    refine ⟨by decide +kernel, fun later hlt hname => ?_⟩
    have hrow : later < 2 := lt_length_of_markedName? hname
    omega
  refine ⟨hlast, by decide +kernel, by decide +kernel, ?_⟩
  obtain ⟨⟨r, x, hanswers, hx, hfind⟩, -⟩ := find?_readings hlast
  -- the first row is the only one with the comma
  have hfirst : table.Records 0 1 (utf8 "Fe,") 0 := by decide +kernel
  rcases hanswers with ⟨hrecords, -⟩ | ⟨hnone, -⟩
  · have hrow : r < 2 := hrecords.lt_length
    obtain rfl | rfl : r = 0 ∨ r = 1 := by omega
    · rw [hfind, ← hx]
      decide +kernel
    · exact absurd hrecords (by decide +kernel)
  · exact absurd hfirst (hnone 0)

end Table

end AssayRules
