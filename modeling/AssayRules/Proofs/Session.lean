import AssayRules.Session
import AssayRules.Proofs.Marking
import Mathlib.Data.Finset.Dedup
import Mathlib.Data.Finset.Card
import Mathlib.Data.List.DropRight

/-!
# What a store has to do with the answers

Nothing, except for which entry is handed out. In a session of any length, with requests of
every kind and in any order, failed ones among them, a store answers for each text with what
the text reads as, with one entry for as long as it is not cleared, and every table is marked
as if nothing had been stored before (`Session.transparent`).

One law says what a request does to the store (`grownBy_perform`): unless it clears the store,
the store grows by the formulas that the request asks to be read. A run of such requests grows
it by the formulas of all of them (`grownBy_run`), so that the texts with entries are those read
since the store was last cleared (`mem_texts_storeAfter`). Numbers of entries are only ever
given out upwards (`issued_le_run`), so entries made at different times never have one number.
-/

namespace AssayRules

theorem Table.column?_eq_none_iff {table : Table} {name : Text} :
    table.column? name = none ↔ name ∉ table.columns := List.idxOf?_eq_none_iff

/-! ### Single requests -/

/-- **The formulas that a request asks to be read**, in order. A table that cannot be read asks
for none. -/
def Request.formulas (settings : Settings) : Request → List Text
  | fetch text => [text]
  | mark rules table =>
    if settings.variableColumn ∈ table.columns then Rule.formulas rules else []
  | markApplicable rules table tableId? =>
    if settings.variableColumn ∈ table.columns then Rule.formulas (Rule.select rules tableId?)
    else []
  | find _ | size | clear => []

namespace Session

variable {settings : Settings} {store : FormulaStore}

/-- **Marking a table in a session**: what is answered does not depend on the store, and the
store grows by the formulas that are read. -/
theorem ofMark_spec (settings : Settings) (rules : List Rule) (table : Table) :
    ∃ answer, ∀ store, (ofMark store (mark settings rules table store)).1 = answer ∧
      store.GrownBy (if settings.variableColumn ∈ table.columns then Rule.formulas rules else [])
        (ofMark store (mark settings rules table store)).2 := by
  -- a table is refused for its columns alone, whatever has been stored
  cases hcolumn : table.column? settings.variableColumn with
  | none =>
    refine ⟨.refused (.columnMissing settings.variableColumn), fun store => ?_⟩
    rw [mark_eq_error settings rules table store hcolumn,
      if_neg (Table.column?_eq_none_iff.1 hcolumn)]
    exact ⟨rfl, .refl (by simp)⟩
  | some variableColumn =>
    refine ⟨.report (settings.report rules table variableColumn), fun store => ?_⟩
    have hmem : settings.variableColumn ∈ table.columns := by
      by_contra hmissing
      rw [Table.column?_eq_none_iff.2 hmissing] at hcolumn
      cases hcolumn
    obtain ⟨store', hmark, hgrown⟩ := mark_eq_report settings rules table store hcolumn
    rw [hmark, if_pos hmem]
    exact ⟨rfl, hgrown⟩

/-- **What a request does to the store**, unless it clears it. -/
theorem grownBy_perform {request : Request} (hclear : request ≠ .clear) :
    store.GrownBy (request.formulas settings) (perform settings store request).2 := by
  -- by the request, of which only reading and marking can add to the store
  cases request with
  | fetch text =>
    rcases store.fetch_spec text with ⟨entry, store', hfetch, -, -, hgrown⟩ |
      ⟨cause, hfetch, hparse⟩
    · simp only [perform, hfetch]
      exact hgrown
    · -- no formula, and the store is the same
      simp only [perform, hfetch]
      refine .refl fun other hother hformula => ?_
      rw [Request.formulas, List.mem_singleton] at hother
      rw [hother, isFormula_eq_false_of_parse hparse] at hformula
      cases hformula
  -- looking a formula up changes nothing
  | find text =>
    have hsame : (perform settings store (.find text)).2 = store := by
      unfold perform
      dsimp only
      split <;> rfl
    rw [hsame]
    exact .refl (by simp [Request.formulas])
  | size => exact .refl (by simp [Request.formulas])
  | clear => exact absurd rfl hclear
  | mark rules table =>
    obtain ⟨_, h⟩ := ofMark_spec settings rules table
    exact (h store).2
  | markApplicable rules table tableId? =>
    obtain ⟨_, h⟩ := ofMark_spec settings (Rule.select rules tableId?) table
    exact (h store).2

/-- Numbers are given out upwards, also when the store is cleared. -/
theorem issued_le_perform (request : Request) :
    store.issued ≤ (perform settings store request).2.issued := by
  by_cases hclear : request = .clear
  · subst hclear
    exact Nat.le_refl _
  · exact (grownBy_perform hclear).issued_le

/-! ### Runs of requests -/

/-- The store after some more requests. -/
def run (settings : Settings) (store : FormulaStore) (requests : List Request) : FormulaStore :=
  requests.foldl (fun store request => (perform settings store request).2) store

theorem storeAfter_append (settings : Settings) (past later : List Request) :
    storeAfter settings (past ++ later) = run settings (storeAfter settings past) later :=
  List.foldl_append

theorem issued_le_run (settings : Settings) (store : FormulaStore) (requests : List Request) :
    store.issued ≤ (run settings store requests).issued := by
  induction requests generalizing store with
  | nil => exact Nat.le_refl _
  | cons request rest ih => exact Nat.le_trans (issued_le_perform request) (ih _)

/-- **While it is not cleared, a store grows** by the formulas of all requests. -/
theorem grownBy_run {requests : List Request} (hclear : .clear ∉ requests) :
    store.GrownBy (requests.flatMap (Request.formulas settings))
      (run settings store requests) := by
  induction requests generalizing store with
  | nil => exact .refl (by simp)
  | cons request rest ih =>
    rw [List.mem_cons, not_or] at hclear
    rw [List.flatMap_cons]
    exact (grownBy_perform (Ne.symm hclear.1)).trans (ih hclear.2)

/-- The requests since the store was last cleared. -/
def sinceCleared (requests : List Request) : List Request :=
  requests.rtakeWhile (· != .clear)

/-- **The texts that were read and are formulas** since the store was last cleared, each as
often as it was read. -/
def formulasRead (settings : Settings) (requests : List Request) : List Text :=
  ((sinceCleared requests).flatMap (Request.formulas settings)).filter isFormula

/-- **The texts with entries** are those read since the store was last cleared. -/
theorem mem_texts_storeAfter {requests : List Request} {text : Text} :
    text ∈ (storeAfter settings requests).texts ↔ text ∈ formulasRead settings requests := by
  unfold formulasRead
  -- by the last request, which either forgets all texts or adds its own
  induction requests using List.reverseRecOn generalizing text with
  | nil => exact iff_of_false List.not_mem_nil List.not_mem_nil
  | append_singleton requests request ih =>
    rw [storeAfter_append, sinceCleared, List.rtakeWhile_concat]
    by_cases hclear : request = .clear
    · -- nothing is left, and nothing has been read since
      subst hclear
      rw [if_neg (by simp)]
      exact iff_of_false (List.not_mem_nil) (by simp)
    · have hrun : .clear ∉ [request] := fun h => hclear (List.mem_singleton.1 h).symm
      rw [if_pos (by simpa using hclear), List.flatMap_append, List.filter_append,
        List.mem_append, ← sinceCleared, ← ih, (grownBy_run hrun).mem_iff, List.mem_filter]

/-! ### What a session may rely on -/

/-- **What may be relied on after any past**, of which nothing is known. -/
structure Transparent (settings : Settings) (past : List Request) : Prop where
  /-- An entry holds what its text reads as. -/
  reads : ∀ text entry, (storeAfter settings past).find? text = some entry →
    Formula.parse text = .ok entry.formula
  /-- There are as many entries as different formulas were read since the store was cleared. -/
  size : perform settings (storeAfter settings past) .size
    = (.size (formulasRead settings past).toFinset.card, storeAfter settings past)
  /-- What is handed out for a text is its entry from then on. -/
  stored : ∀ text entry, (perform settings (storeAfter settings past) (.fetch text)).1
      = .entry entry →
    (perform settings (storeAfter settings past) (.fetch text)).2.find? text = some entry
  /-- Until the store is cleared it is this very entry that is handed out, whatever else is
  asked for in between. -/
  stays : ∀ text entry later, (storeAfter settings past).find? text = some entry →
    .clear ∉ later →
      perform settings (storeAfter settings (past ++ later)) (.fetch text)
          = (.entry entry, storeAfter settings (past ++ later)) ∧
        perform settings (storeAfter settings (past ++ later)) (.find text)
          = (.entry entry, storeAfter settings (past ++ later))
  /-- An entry that is made has a number that no entry ever had, cleared ones included. -/
  fresh : ∀ request text entry, (storeAfter settings past).find? text = none →
    (perform settings (storeAfter settings past) request).2.find? text = some entry →
      ∀ earlier, earlier <+: past → ∀ other ∈ (storeAfter settings earlier).entries,
        other.serial ≠ entry.serial
  /-- A text that is no formula leaves no trace. -/
  malformed : ∀ text cause, Formula.parse text = .error cause →
    perform settings (storeAfter settings past) (.fetch text)
      = (.malformed cause, storeAfter settings past)
  /-- A table is marked as it is over a store without entries. -/
  mark : ∀ rules table, (perform settings (storeAfter settings past) (.mark rules table)).1
    = (perform settings .empty (.mark rules table)).1
  /-- And so it is by the rules that apply to it. -/
  markApplicable : ∀ rules table tableId?,
    (perform settings (storeAfter settings past) (.markApplicable rules table tableId?)).1
      = (perform settings .empty (.markApplicable rules table tableId?)).1

theorem size_storeAfter (settings : Settings) (past : List Request) :
    (storeAfter settings past).size = (formulasRead settings past).toFinset.card := by
  have htexts : (storeAfter settings past).texts.toFinset
      = (formulasRead settings past).toFinset := by
    ext text
    rw [List.mem_toFinset, List.mem_toFinset, mem_texts_storeAfter]
  calc (storeAfter settings past).size
      = (storeAfter settings past).texts.length := (List.length_map _).symm
    _ = (storeAfter settings past).texts.toFinset.card :=
        -- no text has two entries
        (List.toFinset_card_of_nodup (storeAfter settings past).nodup).symm
    _ = (formulasRead settings past).toFinset.card := by rw [htexts]

/-- **The store has nothing to do with the answers**, except for which entry is handed out:
after any past, what is read and reported is what it would be if nothing were stored. -/
theorem transparent (settings : Settings) (past : List Request) :
    Transparent settings past where
  reads _ _ hfind := FormulaStore.parse_of_find?_eq_some hfind
  size := by
    rw [← size_storeAfter]
    rfl
  stored := by
    intro text entry hanswer
    rcases (storeAfter settings past).fetch_spec text with ⟨entry', store', hfetch, -, hfind, -⟩ |
      ⟨cause, hfetch, -⟩
    · simp only [perform, hfetch, Answer.entry.injEq] at hanswer ⊢
      rw [← hanswer]
      exact hfind
    · simp only [perform, hfetch] at hanswer
      cases hanswer
  stays := by
    -- the store only grows until it is cleared, and what it has is found again
    intro text entry later hfind hclear
    have hlater : (storeAfter settings (past ++ later)).find? text = some entry := by
      rw [storeAfter_append]
      exact (grownBy_run hclear).find?_eq_some hfind
    constructor
    · have hfetch := FormulaStore.fetch_of_find?_eq_some hlater
      simp only [perform, hfetch]
    · simp only [perform, hlater]
  fresh := by
    -- a store that was cleared has nothing to be found
    rintro request text entry habsent hfind earlier ⟨between, rfl⟩ other hother
    have hclear : request ≠ .clear := by
      rintro rfl
      cases hfind
    have hnew : (storeAfter settings (earlier ++ between)).issued ≤ entry.serial :=
      (grownBy_perform hclear).issued_le_serial habsent hfind
    -- a number that was in use had been given out by then, and the new one was not until now
    refine Nat.ne_of_lt ?_
    calc other.serial
        < (storeAfter settings earlier).issued :=
          (storeAfter settings earlier).serial_lt other hother
      _ ≤ (run settings (storeAfter settings earlier) between).issued :=
          issued_le_run settings _ between
      _ = (storeAfter settings (earlier ++ between)).issued := by rw [storeAfter_append]
      _ ≤ entry.serial := hnew
  malformed := by
    intro text cause hparse
    rcases (storeAfter settings past).fetch_spec text with ⟨entry, store', -, hread, -⟩ |
      ⟨cause', hfetch, hread⟩
    · rw [hparse] at hread
      cases hread
    · rw [hparse] at hread
      cases hread
      simp only [perform, hfetch]
  mark := by
    intro rules table
    obtain ⟨answer, h⟩ := ofMark_spec settings rules table
    exact (h _).1.trans (h _).1.symm
  markApplicable := by
    intro rules table tableId?
    obtain ⟨answer, h⟩ := ofMark_spec settings (Rule.select rules tableId?) table
    exact (h _).1.trans (h _).1.symm

end Session

end AssayRules
