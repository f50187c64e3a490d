import AssayRules.Proofs.Rows
import AssayRules.Proofs.Sufficiency

/-!
# Rows that make no difference

A row is appended to a table, for a variable that a formula does not refer to. Its spelling is
looked for in the formula all the same, as every recorded spelling is. So whether the formula
holds in a column may change (`outcome?_append_of_intruders`): a part of a number may be taken
for the new variable, or a part of a name that has its turn later.

Nothing changes if the spellings that the row records are **strangers** to the formula
(`Stranger`): they agree with no variable of it and with no recorded spelling, and are found in
its text within references at most that are taken before them. Then the entries of the longer
table are those of the shorter one, in their order, with the strangers in between
(`Readings.filter_entriesLongestFirst`). As long as nothing is torn, the turn of a stranger leaves
the shards as they are, and if something is torn there is no value in either table
(`Readings.shards_eq_or_torn`). So the formula has the same outcome in both (`outcome?_append`).
-/

namespace AssayRules

open Shard

variable {readings other : Readings} {added : List (Text × Float)}

/-! ### Readings with more entries -/

namespace Readings

theorem spellings_of_entries_append (h : other.entries = readings.entries ++ added) :
    other.spellings = readings.spellings ++ added.map Prod.fst := by
  rw [spellings, h, List.map_append, spellings]

/-- **A variable that was found is found again**, if nothing that is added agrees with it or with
what was recorded. -/
theorem find?_of_entries_append (h : other.entries = readings.entries ++ added) {name : Text}
    {x : Float} (hx : readings.find? name = some x)
    (hname : ∀ e ∈ added, e.1.foldCase ≠ name.foldCase)
    (hspelling : ∀ e ∈ added, ∀ spelling ∈ readings.spellings, spelling.foldCase ≠ e.1.foldCase) :
    other.find? name = some x := by
  -- each way of looking up goes through what was recorded before first
  have hrecorded : ∀ t, other.recorded? t = (readings.recorded? t).or (added.lookup t) := by
    intro t
    rw [recorded?, h, List.lookup_append, recorded?]
  have hfolded : ∀ t, other.folded? t = (readings.folded? t).or
      ((added.find? fun e => e.1.foldCase == t.foldCase).map Prod.snd) := by
    intro t
    rw [folded?, h, List.find?_append, Option.map_or, folded?]
  have hadded : ∀ {t y}, added.lookup t = some y → ∃ e ∈ added, e.1 = t :=
    fun hlookup => ⟨_, mem_entries_of_lookup hlookup, rfl⟩
  rw [find?, hrecorded, hrecorded, hfolded]
  rw [find?] at hx
  -- by where the name is found, and there nothing that is added is looked at
  cases hexact : readings.recorded? name with
  | some y =>
    rw [hexact] at hx
    exact hx
  | none =>
    rw [hexact, Option.none_or] at hx
    have hnone : added.lookup name = none := by
      by_contra hne
      obtain ⟨y, hy⟩ := Option.ne_none_iff_exists'.1 hne
      obtain ⟨e, he, rfl⟩ := hadded hy
      exact hname e he rfl
    rw [hnone, Option.or_none, Option.none_or]
    cases hcanonical : readings.recorded? (Name.canonical name) with
    | some y =>
      rw [hcanonical] at hx
      exact hx
    | none =>
      rw [hcanonical, Option.none_or] at hx
      -- what was found agrees with the canonical spelling, so nothing that is added is that
      have hnone : added.lookup (Name.canonical name) = none := by
        by_contra hne
        obtain ⟨y, hy⟩ := Option.ne_none_iff_exists'.1 hne
        obtain ⟨e, he, heq⟩ := hadded hy
        obtain ⟨spelling, hmem, hfold⟩ :=
          isSome_folded?_iff.1 (Option.isSome_iff_exists.2 ⟨x, hx⟩)
        exact hspelling e he spelling hmem (heq ▸ hfold)
      rw [hnone, Option.or_none, Option.none_or, hx, Option.some_or]

/-- Whether the spelling of an entry is recorded. -/
def records (readings : Readings) (entry : Text × Float) : Bool :=
  decide (entry.1 ∈ readings.spellings)

/-- **The listing goes on as before**, with what is added in between. -/
theorem filter_entriesLongestFirst (h : other.entries = readings.entries ++ added) :
    other.entriesLongestFirst.filter readings.records
      = readings.entriesLongestFirst := by
  -- no spelling is recorded twice, so that none is both added and recorded
  have hnodup := other.nodup
  rw [h, List.map_append, List.nodup_append] at hnodup
  have hkept : (readings.entries ++ added).filter readings.records
      = readings.entries := by
    rw [List.filter_append, List.filter_eq_self.2, List.filter_eq_nil_iff.2, List.append_nil]
    · intro e he hmem
      exact hnodup.2.2 _ (of_decide_eq_true hmem) _ (List.mem_map_of_mem he) rfl
    · exact fun e he => decide_eq_true (List.mem_map_of_mem he)
  -- both are the same entries in the one order, which leaves no choice
  have hperm : (other.entriesLongestFirst.filter readings.records).Perm
      readings.entriesLongestFirst := by
    have hfilter := (perm_entriesLongestFirst other).filter readings.records
    rw [h, hkept] at hfilter
    exact hfilter.trans (perm_entriesLongestFirst readings).symm
  exact eq_of_perm_of_pairwise hperm
    ((perm_spellingsLongestFirst readings).nodup_iff.2 readings.nodup)
    (other.pairwise_longestFirst.filter _) readings.pairwise_longestFirst

/-! ### One run -/

/-- **A run ends as it did**, or it is torn over both readings. -/
theorem shards_eq_or_torn {r : Text} (hne : r ≠ []) (hr : r.IsUtf8)
    (h : other.entries = readings.entries ++ added)
    (hadded : ∀ e ∈ added, e.1.IsUtf8 ∧ FoundWithin (readings.Anticipates e.1) e.1 r) :
    other.shards r = readings.shards r ∨ Torn (other.shards r) ∧ Torn (readings.shards r) := by
  have hspellings := spellings_of_entries_append h
  suffices hmain : ∀ before after, other.entriesLongestFirst = before ++ after →
      before.foldl Shard.turn [.text r]
          = (before.filter readings.records).foldl Shard.turn [.text r] ∨
        Torn (before.foldl Shard.turn [.text r]) ∧
          Torn ((before.filter readings.records).foldl Shard.turn [.text r]) by
    have hall := hmain _ [] (List.append_nil _).symm
    rwa [filter_entriesLongestFirst h] at hall
  intro before
  -- entry by entry from the longest on, with the last turn taken apart
  induction before using List.reverseRecOn with
  | nil => exact fun _ _ => Or.inl rfl
  | append_singleton before e ih =>
    intro after hentries
    rw [List.append_assoc, List.singleton_append] at hentries
    rw [List.filter_append, List.foldl_append, List.foldl_append, List.foldl_cons, List.foldl_nil]
    rcases ih (e :: after) hentries with heq | ⟨htorn, htorn'⟩
    · by_cases hmem : e.1 ∈ readings.spellings
      · have hrecords : readings.records e = true := decide_eq_true hmem
        rw [List.filter_cons_of_pos hrecords, List.filter_nil, List.foldl_cons,
          List.foldl_nil, heq]
        exact Or.inl rfl
      · -- an entry that is added takes its turn over one of the readings only
        have hrecords : ¬ readings.records e = true := by simpa [records] using hmem
        rw [List.filter_cons_of_neg hrecords, List.filter_nil, List.foldl_nil, ← heq]
        have he : e ∈ added := by
          have he : e ∈ other.entries := other.perm_entriesLongestFirst.mem_iff.1
            (hentries ▸ List.mem_append_right _ List.mem_cons_self)
          rw [h] at he
          exact (List.mem_append.1 he).resolve_left fun he => hmem (List.mem_map_of_mem he)
        obtain ⟨hutf8, hfound⟩ := hadded e he
        have hsound := (Sound.singleton hne hr).foldl_turn before
        have hsources : sources (before.foldl Shard.turn [.text r]) = r := by
          rw [sources_foldl_turn, sources_singleton, source]
        -- the new turn finds nothing in what is still text, or takes a reading out of it
        rcases hsound.turn_cases (by rwa [hsources]) hutf8 with hturn | ⟨a, u, t, hsplit, hin, hu⟩
        · exact Or.inl hturn
        · -- what it takes lies within a longer name, and this was taken or torn before
          rw [hsources] at hsplit
          obtain ⟨front, m, m', back, rfl, rfl, hy, spelling, hspelling, hlong⟩ :=
            hfound a u t hsplit hu
          have hr' : r = front ++ ((m ++ (u ++ m')) ++ back) := by
            rw [hsplit]
            simp only [List.append_assoc]
          have hanticipates : other.Anticipates e.1 (m ++ (u ++ m')) :=
            ⟨spelling, hspellings ▸ List.mem_append_left _ hspelling, hlong⟩
          have hnot := not_inText_of_anticipates hne hr hentries hr' hy hanticipates
          have htorn := (hsound.inText_or_torn hin hu.ne_nil (hsources.trans hr')
            hy.isBare).resolve_left hnot
          exact Or.inr ⟨htorn.turn e, htorn⟩
    · exact Or.inr ⟨htorn.turn e, htorn'.foldl_turn _⟩

end Readings

/-! ### One side -/

/-- An expression that has a value evaluates. -/
theorem evaluates_of_eq_ok {expression : Text} {mode : Precedence} {x : Float}
    (h : evaluate expression readings mode = .ok x) : Evaluates expression readings mode := by
  by_contra hnot
  obtain ⟨failure, hfailure, -⟩ := not_evaluates_iff.1 hnot
  rw [h] at hfailure
  cases hfailure

section

variable {side : Text} {names : List Text}

/-- **The references in brackets are looked up as before** if nothing that is added agrees with a
variable or with what was recorded. -/
theorem find?_reference (hnames : references side = .ok names)
    (hmissing : missingReferences readings (segments side) = [])
    (h : other.entries = readings.entries ++ added)
    (hvariable : ∀ e ∈ added, ∀ name ∈ names, name.foldCase ≠ e.1.foldCase)
    (hspelling : ∀ e ∈ added, ∀ spelling ∈ readings.spellings, spelling.foldCase ≠ e.1.foldCase)
    {inside : Text} (hmem : .reference inside ∈ segments side) :
    other.find? (Name.canonical inside) = readings.find? (Name.canonical inside) := by
  obtain ⟨x, hx⟩ := exists_find?_of_missingReferences hmissing hmem
  rw [hx]
  refine Readings.find?_of_entries_append h hx (fun e he hfold => ?_) hspelling
  by_cases hempty : Name.canonical inside = []
  · -- brackets around nothing are no variable, but the empty spelling is recorded for them
    obtain ⟨spelling, hspelling', heq⟩ := Readings.contains_iff.1
      (show readings.contains (Name.canonical inside) = true by rw [Readings.contains, hx]; rfl)
    rw [hempty, Name.canonical_nil, or_self_left] at heq
    refine hspelling e he spelling hspelling' ?_
    rw [hfold, hempty]
    exact heq.elim (congrArg Text.foldCase) id
  · exact hvariable e he _ ((mem_references_iff_refers hnames).2
      ⟨hempty, Or.inl ⟨inside, hmem, rfl⟩⟩) hfold.symm

/-- **A side becomes the same tokens**, or a run of it is torn over both readings. -/
theorem substitute_eq_or_torn (hside : side.IsUtf8)
    (hclosed : (segments side).any Segment.isUnclosed = false)
    (hmissing : missingReferences readings (segments side) = [])
    (hfind : ∀ inside, .reference inside ∈ segments side →
      other.find? (Name.canonical inside) = readings.find? (Name.canonical inside))
    (h : other.entries = readings.entries ++ added)
    (hfound : ∀ e ∈ added, e.1.IsUtf8 ∧
      ∀ r ∈ runs (segments side), FoundWithin (readings.Anticipates e.1) e.1 r) :
    substitute side other = substitute side readings ∨
      ∃ r, .text r ∈ referencePieces readings (segments side) ∧
        Torn (other.shards r) ∧ Torn (readings.shards r) := by
  by_cases htorn : ∃ r, .text r ∈ referencePieces readings (segments side) ∧
      Torn (other.shards r) ∧ Torn (readings.shards r)
  · -- else the two differ at most in what the turns leave of each run
    exact Or.inr htorn
  · left
    -- where nothing is torn, every run ends as it did
    have hreplaced : replaceEntries other (referencePieces readings (segments side))
        = replaceEntries readings (referencePieces readings (segments side)) := by
      rw [replaceEntries, replaceEntries, foldl_replaceEntry_eq_flatMap,
        foldl_replaceEntry_eq_flatMap readings.entriesLongestFirst]
      refine List.flatMap_congr fun piece hpiece => ?_
      cases piece with
      | value y => rw [foldl_replaceEntry_value, foldl_replaceEntry_value]
      | text r =>
        obtain ⟨hrun, hne⟩ := mem_runs_of_mem_referencePieces hclosed hmissing hpiece
        rw [← Readings.map_piece_shards, ← Readings.map_piece_shards]
        refine congrArg (List.map piece) ?_
        refine (Readings.shards_eq_or_torn hne (hside.of_mem_runs hrun) h
          fun e he => ⟨(hfound e he).1, (hfound e he).2 r hrun⟩).resolve_right fun hboth => ?_
        exact htorn ⟨r, hpiece, hboth⟩
    rw [substitute, substitute]
    dsimp only
    rw [missingReferences_of_find?_eq hfind, referencePieces_of_find?_eq hfind, hreplaced]

/-- **A side has its value** over readings with strangers exactly if it has it without them. -/
theorem evaluate_eq_ok_iff (hside : side.IsUtf8) (hnames : references side = .ok names)
    (hcheck : checkArithmetic side names = .ok ())
    (hcontains : ∀ name ∈ names, readings.contains name = true)
    (h : other.entries = readings.entries ++ added)
    (hvariable : ∀ e ∈ added, ∀ name ∈ names, name.foldCase ≠ e.1.foldCase)
    (hspelling : ∀ e ∈ added, ∀ spelling ∈ readings.spellings, spelling.foldCase ≠ e.1.foldCase)
    (hfound : ∀ e ∈ added, e.1.IsUtf8 ∧
      ∀ r ∈ runs (segments side), FoundWithin (readings.Anticipates e.1) e.1 r)
    {mode : Precedence} {x : Float} :
    evaluate side other mode = .ok x ↔ evaluate side readings mode = .ok x := by
  -- the side can be evaluated over ones, so that its brackets close and its variables are the names
  have htrial := evaluates_of_checkArithmetic hcheck .standard
  obtain ⟨_, hsubstitute, -⟩ := evaluates_iff.1 htrial
  obtain ⟨hclosed, hpresent, -⟩ := substitute_eq_ok_iff.1 hsubstitute
  have hmissing := missingReferences_eq_nil hnames hpresent hcontains
  have hfind : ∀ inside, .reference inside ∈ segments side →
      other.find? (Name.canonical inside) = readings.find? (Name.canonical inside) :=
    fun _ hmem => find?_reference hnames hmissing h hvariable hspelling hmem
  rcases substitute_eq_or_torn hside hclosed hmissing hfind h hfound with
    hsame | ⟨r, hr, htorn, htorn'⟩
  · rw [evaluate, evaluate, hsame]
  · -- there is no value in either case
    refine iff_of_false (fun heq => ?_) (fun heq => ?_)
    · have hr' := (referencePieces_of_find?_eq hfind).symm ▸ hr
      exact not_evaluates_of_torn hr' htorn (evaluates_of_eq_ok heq)
    · exact not_evaluates_of_torn hr htorn' (evaluates_of_eq_ok heq)

end

/-! ### One row more -/

namespace Table

/-- **A table with one row more.** -/
def append (table : Table) (row : List Cell) : Table :=
  { table with rows := table.rows ++ [row] }

/-- What the new row records. -/
def lastReadings (table : Table) (variableColumn column : Nat) : List (Text × Float) :=
  table.rowReadings variableColumn column (table.rows.length - 1)

variable {table : Table} {row : List Cell} {variableColumn column : Nat}

theorem rowReadings_append {i : Nat} (h : i < table.rows.length) :
    (table.append row).rowReadings variableColumn column i
      = table.rowReadings variableColumn column i := by
  have hcell : ∀ c, (table.append row).cell i c = table.cell i c := by
    intro c
    rw [cell, cell, append, List.getElem?_append_left h]
  rw [rowReadings, rowReadings, hcell, hcell]

/-- **The readings of the longer table** are those of the shorter one, and what the new row
records behind them. -/
theorem entries_readings_append
    (hnew : ∀ e ∈ (table.append row).lastReadings variableColumn column,
      e.1 ∉ (table.readings variableColumn column).spellings) :
    ((table.append row).readings variableColumn column).entries
      = (table.readings variableColumn column).entries
        ++ (table.append row).lastReadings variableColumn column := by
  have hlength : (table.append row).rows.length = table.rows.length + 1 := List.length_append
  have hlast : (table.append row).lastReadings variableColumn column
      = (table.append row).rowReadings variableColumn column table.rows.length := by
    rw [lastReadings, hlength, Nat.add_sub_cancel]
  -- the rows in front of it are read as before
  have hrows : (List.range table.rows.length).flatMap
        ((table.append row).rowReadings variableColumn column)
      = (List.range table.rows.length).flatMap (table.rowReadings variableColumn column) :=
    -- the readings are recorded row by row, and the last row comes last
    List.flatMap_congr fun i hi => rowReadings_append (List.mem_range.1 hi)
  have hfold : (table.append row).readings variableColumn column
      = ((table.append row).lastReadings variableColumn column).foldl
          (fun recorded entry => recorded.set entry.1 entry.2)
          (table.readings variableColumn column) := by
    rw [readings, Readings.ofList, hlength, List.range_succ, List.flatMap_append,
      List.flatMap_singleton, hrows, List.foldl_append, ← Readings.ofList, ← readings, hlast]
  rw [hfold]
  exact Readings.entries_foldl_set (nodup_rowReadings _ _ _ _) hnew

end Table

/-- **A spelling is a stranger** to a formula over readings, if it agrees with none of its
variables and with nothing recorded, and is found in its text only within references that are
taken before it. -/
structure Stranger (formula : Formula) (readings : Readings) (name : Text) : Prop where
  utf8 : name.IsUtf8
  other_variable : ∀ other ∈ formula.variableNames, other.foldCase ≠ name.foldCase
  other_spelling : ∀ other ∈ readings.spellings, other.foldCase ≠ name.foldCase
  found : ∀ r ∈ runs (segments formula.left) ++ runs (segments formula.right),
    FoundWithin (readings.Anticipates name) name r

/-- **Rows that a formula does not refer to do not interfere**: a row that records strangers only
may be appended, and the formula holds as it did, with the same values of its sides. -/
theorem outcome?_append {s : Text} (hs : s.IsUtf8) {formula : Formula}
    (hformula : Formula.parse s = .ok formula) (settings : Settings) (table : Table)
    (row : List Cell) (variableColumn column : Nat)
    (hcontains : ∀ name ∈ formula.variableNames,
      (table.readings variableColumn column).contains name = true)
    (hstrangers : ∀ e ∈ (table.append row).lastReadings variableColumn column,
      Stranger formula (table.readings variableColumn column) e.1) :
    formula.outcome? settings ((table.append row).readings variableColumn column)
      = formula.outcome? settings (table.readings variableColumn column) := by
  have hentries := Table.entries_readings_append fun e he hmem =>
    (hstrangers e he).other_spelling _ hmem rfl
  -- from here on only the readings of the column matter
  generalize table.readings variableColumn column = readings at hcontains hstrangers hentries ⊢
  generalize (table.append row).readings variableColumn column = other at hentries ⊢
  obtain ⟨hutf8, hutf8'⟩ := Formula.isUtf8_sides hs hformula
  obtain ⟨⟨hnames, hcheck⟩, hnames', hcheck'⟩ := Formula.checked_of_parse hformula
  have hspelling := fun e he => (hstrangers e he).other_spelling
  have hcontains' : ∀ name ∈ formula.variableNames, other.contains name = true := by
    intro name hname
    obtain ⟨x, hx⟩ := Option.isSome_iff_exists.1 (hcontains name hname)
    rw [Readings.contains, Readings.find?_of_entries_append hentries hx
      (fun e he => ((hstrangers e he).other_variable name hname).symm) hspelling]
    rfl
  -- what is unknown to the formula is unknown to each of its sides
  have hside : ∀ {side names}, side.IsUtf8 → references side = .ok names →
      checkArithmetic side names = .ok () → (∀ name ∈ names, name ∈ formula.variableNames) →
      (∀ r ∈ runs (segments side),
        r ∈ runs (segments formula.left) ++ runs (segments formula.right)) →
      ∀ x, evaluate side other settings.precedence = .ok x ↔
        evaluate side readings settings.precedence = .ok x := by
    intro side names hutf8 hnames hcheck hvariables hruns x
    refine evaluate_eq_ok_iff hutf8 hnames hcheck
      (fun name hname => hcontains name (hvariables name hname)) hentries ?_ hspelling ?_
    · exact fun e he name hname => (hstrangers e he).other_variable name (hvariables name hname)
    · exact fun e he => ⟨(hstrangers e he).utf8, fun r hr => (hstrangers e he).found r (hruns r hr)⟩
  -- a formula has an outcome where all variables are there and both sides have their values
  refine Option.ext fun sides => ?_
  obtain ⟨x, y⟩ := sides
  rw [Formula.outcome?_eq_some_iff, Formula.outcome?_eq_some_iff]
  refine and_congr (iff_of_true hcontains' hcontains) (and_congr ?_ (and_congr_left' ?_))
  · exact hside hutf8 hnames hcheck (fun name hname => Formula.mem_variableNames.2 (Or.inl hname))
      (fun r hr => List.mem_append_left _ hr) x
  · exact hside hutf8' hnames' hcheck'
      (fun name hname => Formula.mem_variableNames.2 (Or.inr hname))
      (fun r hr => List.mem_append_right _ hr) y

/-- A row for a variable whose name is part of a longer one. -/
theorem outcome?_append_of_nested_name :
    let table : Table := ⟨[utf8 "Variable", utf8 "A"],
      [[.text (utf8 "FE TOTAL"), .number 3.0], [.text (utf8 "x"), .text (utf8 "2")]]⟩
    let formula : Formula := ⟨utf8 "Fe total / [x]", .greater, utf8 "0.5",
      [utf8 "x", utf8 "Fe total"], []⟩
    formula.outcome? {} ((table.append [.text (utf8 " Fe"), .number 1.0]).readings 0 1)
      = formula.outcome? {} (table.readings 0 1) := by
  intro table formula
  have hparse : Formula.parse (utf8 "Fe total / [x] > 0.5") = .ok formula :=
    toOption_eq_some_iff.1 (by decide +kernel)
  have hlast : (table.append [.text (utf8 " Fe"), .number 1.0]).lastReadings 0 1
      = [(utf8 "Fe", 1.0)] := by decide +kernel
  refine outcome?_append ⟨_, rfl⟩ hparse {} table _ 0 1 (by decide +kernel) ?_
  rw [hlast]
  refine List.forall_mem_singleton.2 ⟨⟨_, rfl⟩, by decide +kernel, by decide +kernel, ?_⟩
  have hfound : ∀ r ∈ runs (segments formula.left) ++ runs (segments formula.right),
      foundWithin (fun y => decide ((table.readings 0 1).Anticipates (utf8 "Fe") y)) (utf8 "Fe") r
        = true := by decide +kernel
  exact fun r hr => foundWithin_of_eq_true (hfound r hr)

/-- **A row intrudes on a formula**: in the table of the variables `names` with the reading one
the formula has the outcome `before`, and with a row for `name` that reads two, which is another
variable, it has the outcome `after`. -/
def Intrudes (s : Text) (names : List Text) (name : Text) (before after : Option (Float × Float)) :
    Prop :=
  let table : Table := ⟨[utf8 "Variable", utf8 "A"],
    names.map fun other => [.text other, .number 1.0]⟩
  ∃ formula, Formula.parse s = .ok formula ∧
    (∀ other ∈ formula.variableNames, (table.readings 0 1).contains other = true) ∧
    (∀ other ∈ formula.variableNames ++ names.map Name.canonical,
      other.foldCase ≠ (Name.canonical name).foldCase) ∧
    formula.outcome? {} (table.readings 0 1) = before ∧
    formula.outcome? {} ((table.append [.text name, .number 2.0]).readings 0 1) = after

/-- **Rows do interfere with formulas** that do not refer to them: one whose spelling is found in
a number; one of more bytes than the name in which it is found; one that is entered with a comma
and spelled like a variable then; one in a text that is not UTF-8, where the longer spelling that
should be taken first is missed; and one that is not UTF-8 itself, and stands alone only when
what is around it is gone. -/
theorem outcome?_append_of_intruders :
    Intrudes (utf8 "x > 0.5") [utf8 "x"] (utf8 "5") (some (1.0, 0.5)) none ∧
    Intrudes (utf8 "a iii > 0") [utf8 "a iii"] (utf8 "İİİ") (some (1.0, 0.0)) none ∧
    Intrudes (utf8 "[x, ,] > 0") [utf8 "x, ,"] (utf8 "x,") (some (1.0, 0.0)) (some (2.0, 0.0)) ∧
    Intrudes (utf8 "iiii x" ++ [0xC3] ++ utf8 "+1 > 0")
      [utf8 "iiii x" ++ [0xC3], utf8 "İİİİ X" ++ [0xC3]] (utf8 "İİİİ") (some (2.0, 0.0)) none ∧
    Intrudes (utf8 "aaa+bbb > 0") [utf8 "aaa", utf8 "bbb"] [0xC0, 0xAB] (some (2.0, 0.0)) none := by
  refine ⟨⟨⟨utf8 "x", .greater, utf8 "0.5", [utf8 "x"], []⟩, ?_⟩,
    ⟨⟨utf8 "a iii", .greater, utf8 "0", [utf8 "a iii"], []⟩, ?_⟩,
    ⟨⟨utf8 "[x, ,]", .greater, utf8 "0", [utf8 "x,"], []⟩, ?_⟩,
    ⟨⟨utf8 "iiii x" ++ [0xC3] ++ utf8 "+1", .greater, utf8 "0", [utf8 "iiii x" ++ [0xC3]], []⟩, ?_⟩,
    ⟨⟨utf8 "aaa+bbb", .greater, utf8 "0", [utf8 "aaa", utf8 "bbb"], []⟩, ?_⟩⟩ <;>
  · refine ⟨toOption_eq_some_iff.1 ?_, ?_, ?_, ?_, ?_⟩ <;> decide +kernel

end AssayRules
