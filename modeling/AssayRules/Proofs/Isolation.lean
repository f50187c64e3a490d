import AssayRules.Proofs.Checking
import AssayRules.Proofs.Session

/-!
# Failures stay where they belong

Only a table without a column of variables makes marking fail, and then nothing has been read
or stored. Every other failure is the affair of one rule (`mark_isolated`).

A rule whose formula does not read is reported with the cause, marks nothing and leaves no
entry in the store. The cause is always a broken rule of the language, as the type of
`Formula.parse` has no other: whatever goes wrong while the sides of a formula are checked is
passed on as one, with its message (`exists_malformed_of_substitute`). A rule that cannot be
evaluated in a column, for whatever reason, does not hold in this column
(`outcome?_eq_none_of_failure`).
-/

namespace AssayRules

/-! ### Failures while a formula is read -/

/-- **A failure of substitution makes a text malformed**, with the message that the failure
has. -/
theorem exists_malformed_of_substitute {s : Text} {names : List Text}
    {failure : ExpressionError} (h : substitute s (.ones names) = .error failure) :
    ∃ cause, checkArithmetic s names = .error cause ∧ cause.message = failure.message := by
  unfold checkArithmetic
  rw [h]
  cases failure with
  | malformed cause => exact ⟨cause, rfl, rfl⟩
  | unresolved missing => exact ⟨.unknownNames missing, rfl, rfl⟩
  | notFinite t => exact absurd h (substitute_ne_notFinite s t _)

/-- A token list that is no expression makes a text malformed. -/
theorem checkArithmetic_of_ofTokens {s : Text} {names : List Text} {tokens : List Token}
    {cause : Malformed} (htokens : substitute s (.ones names) = .ok tokens)
    (h : Program.ofTokens .standard tokens = .error cause) :
    checkArithmetic s names = .error cause := by
  unfold checkArithmetic
  rw [htokens]
  change (Program.ofTokens .standard tokens).map (fun _ => ()) = .error cause
  rw [h]
  rfl

/-! ### Failures while a formula is evaluated -/

/-- **A formula of which a side cannot be evaluated does not hold**, whatever the failure
is. -/
theorem outcome?_eq_none_of_failure {settings : Settings} {readings : Readings}
    {formula : Formula} {failure : ExpressionError}
    (h : evaluate formula.left readings settings.precedence = .error failure ∨
      evaluate formula.right readings settings.precedence = .error failure) :
    formula.outcome? settings readings = none := by
  cases houtcome : formula.outcome? settings readings with
  | none => rfl
  | some sides =>
    -- an outcome needs a value on both sides
    obtain ⟨-, hleft, hright, -⟩ := Formula.outcome?_eq_some_iff.1 houtcome
    rcases h with h | h
    · rw [hleft] at h
      cases h
    · rw [hright] at h
      cases h

/-! ### Marking -/

theorem Rule.issue?_eq_some_iff {rule : Rule} {issue : Issue} :
    rule.issue? = some issue ↔ rule.active = true ∧
      ∃ cause, Formula.parse rule.formula = .error cause ∧ issue = ⟨rule, cause⟩ := by
  unfold Rule.issue?
  split
  · rename_i hactive
    cases hparse : Formula.parse rule.formula with
    | ok formula => simp
    | error cause => simp [hactive, eq_comm]
  · rename_i hactive
    exact iff_of_false (by simp) fun h => hactive h.1

/-- **The outcome of marking a table that can be read**, with failures where they belong. -/
structure Settings.Isolates (settings : Settings) (rules : List Rule) (table : Table)
    (variableColumn : Nat) (store : FormulaStore) (report : Report) (store' : FormulaStore) :
    Prop where
  /-- The issues are the rules switched on whose formulas do not read, in order, each with the
  cause. -/
  issues_eq : report.issues = rules.filterMap Rule.issue?
  /-- None of these rules says anything about a cell. -/
  unmarked : ∀ cell ∈ report.cells, ∀ detail ∈ cell.details, ∀ issue ∈ report.issues,
    detail.formula ≠ issue.rule.formula
  /-- What is said about a cell is said by a rule whose sides have values in a column of that
  name. -/
  marked : ∀ cell ∈ report.cells, ∀ detail ∈ cell.details, ∃ rule ∈ rules,
    detail.ruleId = rule.id ∧ detail.name = rule.name ∧ detail.formula = rule.formula ∧
      ∃ formula position entered, settings.Marks table variableColumn rule cell.row cell.column
        detail.left detail.right formula position entered
  /-- The store keeps what it had as it was, in front of what is new. -/
  kept : ∃ made, store'.entries = store.entries ++ made
  /-- What is new are the formulas of the rules that are switched on and read. -/
  mem_iff : ∀ text, text ∈ store'.texts ↔ text ∈ store.texts ∨
    ∃ rule ∈ rules, rule.active = true ∧ rule.formula = text ∧
      ∃ formula, Formula.parse text = .ok formula

theorem isolates_of_grownBy {settings : Settings} {rules : List Rule} {table : Table}
    {variableColumn : Nat} {store store' : FormulaStore}
    (hgrown : store.GrownBy (Rule.formulas rules) store') :
    settings.Isolates rules table variableColumn store
      (settings.report rules table variableColumn) store' where
  -- what is reported is made rule by rule, and so each field follows from the one rule it is about
  issues_eq := rfl
  unmarked := by
    intro cell hcell detail hdetail issue hissue heq
    obtain ⟨rule, -, left, right, formula, position, entered, hmarks, rfl⟩ :=
      Settings.exists_marks_of_mem_report hcell hdetail
    obtain ⟨other, -, hother⟩ := List.mem_filterMap.1 hissue
    obtain ⟨-, cause, hfails, rfl⟩ := Rule.issue?_eq_some_iff.1 hother
    -- one text would both read and not read
    have hsame : rule.formula = other.formula := heq
    rw [← hsame, hmarks.reads] at hfails
    cases hfails
  marked := by
    intro cell hcell detail hdetail
    obtain ⟨rule, hrule, left, right, formula, position, entered, hmarks, rfl⟩ :=
      Settings.exists_marks_of_mem_report hcell hdetail
    exact ⟨rule, hrule, rfl, rfl, rfl, formula, position, entered, hmarks⟩
  kept := by
    obtain ⟨made, hmade, -⟩ := hgrown.entries
    exact ⟨made, hmade⟩
  mem_iff := by
    intro text
    rw [hgrown.mem_iff, Rule.formulas, List.mem_map, isFormula_iff]
    simp only [List.mem_filter]
    refine or_congr_right ⟨?_, ?_⟩
    · rintro ⟨⟨rule, ⟨hrule, hactive⟩, hformula⟩, hreads⟩
      exact ⟨rule, hrule, hactive, hformula, hreads⟩
    · rintro ⟨rule, hrule, hactive, hformula, hreads⟩
      exact ⟨⟨rule, ⟨hrule, hactive⟩, hformula⟩, hreads⟩

/-- **Failures stay where they belong.** -/
theorem mark_isolated (settings : Settings) (rules : List Rule) (table : Table)
    (store : FormulaStore) :
    -- only a table without a column of variables is refused, and nothing has been stored
    (settings.variableColumn ∉ table.columns →
      mark settings rules table store = .error (.columnMissing settings.variableColumn) ∧
        Session.perform settings store (.mark rules table)
          = (.refused (.columnMissing settings.variableColumn), store)) ∧
    (settings.variableColumn ∈ table.columns → ∃ variableColumn report store',
      table.column? settings.variableColumn = some variableColumn ∧
        mark settings rules table store = .ok (report, store') ∧
        settings.Isolates rules table variableColumn store report store') ∧
    -- a side that fails, for whatever reason, only keeps its formula from holding
    (∀ (formula : Formula) readings failure,
      evaluate formula.left readings settings.precedence = .error failure ∨
          evaluate formula.right readings settings.precedence = .error failure →
        formula.outcome? settings readings = none) ∧
    -- a text that cannot be checked is malformed, for whatever reason
    (∀ s names failure, substitute s (.ones names) = .error failure →
      ∃ cause, checkArithmetic s names = .error cause ∧ cause.message = failure.message) ∧
    ∀ s names tokens cause, substitute s (.ones names) = .ok tokens →
      Program.ofTokens .standard tokens = .error cause →
        checkArithmetic s names = .error cause := by
  -- the last three are about single steps, and the first two about the whole table
  refine ⟨?_, ?_, fun _ _ _ h => outcome?_eq_none_of_failure h,
    fun _ _ _ h => exists_malformed_of_substitute h,
    fun _ _ _ _ htokens h => checkArithmetic_of_ofTokens htokens h⟩
  · intro hmissing
    have hmark := mark_eq_error settings rules table store
      (Table.column?_eq_none_iff.2 hmissing)
    refine ⟨hmark, ?_⟩
    simp only [Session.perform, hmark, Session.ofMark]
  · intro hmem
    cases hcolumn : table.column? settings.variableColumn with
    | none => exact absurd hmem (Table.column?_eq_none_iff.1 hcolumn)
    | some variableColumn =>
      -- what has been stored has grown by the formulas of these rules, and by nothing else
      obtain ⟨store', hmark, hgrown⟩ := mark_eq_report settings rules table store hcolumn
      exact ⟨variableColumn, _, store', rfl, hmark, isolates_of_grownBy hgrown⟩

/-- Half a formula beside a whole one, a table without a column of variables, and texts that
cannot be evaluated or checked. -/
theorem mark_isolated_of_half_formula :
    let half : Rule := { id := utf8 "1", name := utf8 "Half", formula := utf8 "Fe >" }
    let iron : Rule := { id := utf8 "2", name := utf8 "Iron", formula := utf8 "Fe > 1" }
    let table : Table := ⟨[utf8 "Variable", utf8 "March"],
      [[.text (utf8 "Fe"), .number 2.0]]⟩
    let nameless : Table := ⟨[utf8 "March"], [[.number 2.0]]⟩
    let formula : Formula := ⟨utf8 "Fe", .greater, utf8 "1", [utf8 "Fe"], []⟩
    mark {} [half, iron] nameless .empty = .error (.columnMissing (utf8 "Variable")) ∧
      (∃ report store', mark {} [half, iron] table .empty = .ok (report, store') ∧
        report.issues = [⟨half, .sideMissing⟩]) ∧
      formula.outcome? {} (.ofList []) = none ∧
      (∃ cause, checkArithmetic (utf8 "2 [") [] = .error cause ∧
        cause.message = utf8 "Unterminated '[' in expression") ∧
      checkArithmetic (utf8 "()") [] = .error .operandMissingBeforeParen := by
  intro half iron table nameless formula
  obtain ⟨hrefused, hisolates, -, -, -⟩ := mark_isolated {} [half, iron] nameless .empty
  obtain ⟨-, hmarked, houtcome, hmalformed, htokens⟩ :=
    mark_isolated {} [half, iron] table .empty
  obtain ⟨_, report, store', -, hmark, hreport⟩ := hmarked (by decide)
  have hissues : [half, iron].filterMap Rule.issue? = [⟨half, .sideMissing⟩] := by
    decide +kernel
  have hleft : evaluate formula.left (.ofList []) .standard
      = .error (.unresolved [utf8 "Fe"]) := by
    have hsubstitute : substitute (utf8 "Fe") (.ofList []) = .error (.unresolved [utf8 "Fe"]) := by
      decide +kernel
    rw [evaluate, hsubstitute]
  refine ⟨(hrefused (by decide)).1, ⟨report, store', hmark, hreport.issues_eq.trans hissues⟩,
    houtcome formula _ _ (Or.inl hleft), ?_, ?_⟩
  · exact hmalformed (utf8 "2 [") [] (.malformed .unclosedReference) (by decide +kernel)
  · exact htokens (utf8 "()") [] [.leftParen, .rightParen, .stop] _
      (toOption_eq_some_iff.1 (by decide +kernel)) (by decide +kernel)

end AssayRules
