import AssayRules.Marking
import Mathlib.Tactic.Common

/-!
# Reading formulas through a store

A text is read through a store in one of three ways (`FormulaStore.fetch_cases`): its entry is
there, or it is a formula and gets one behind the others, or it is no formula and leaves no
trace. So a store only grows, and what it grows by follows from the texts that were read
(`FormulaStore.GrownBy`): nothing is removed or replaced, the formulas among the texts are
there in the end, and the numbers of new entries are new.

Making rules ready reads one formula after the other. What one rule adds is told by
`prepare_cons`, and what they add together by `prepare_spec`: which rules are ready and which
are issues depends on the rules alone, and the store grows by the formulas of the rules that
are switched on.
-/

namespace AssayRules

/-! ### Reading one formula -/

/-- Whether a text is a formula. -/
def isFormula (text : Text) : Bool := (Formula.parse text).toOption.isSome

theorem isFormula_iff {text : Text} :
    isFormula text = true ↔ ∃ formula, Formula.parse text = .ok formula := by
  rw [isFormula, Option.isSome_iff_exists]
  exact exists_congr fun _ => toOption_eq_some_iff

theorem isFormula_of_parse {text : Text} {formula : Formula}
    (h : Formula.parse text = .ok formula) : isFormula text = true :=
  isFormula_iff.2 ⟨formula, h⟩

theorem isFormula_eq_false_of_parse {text : Text} {cause : Malformed}
    (h : Formula.parse text = .error cause) : isFormula text = false := by
  rw [isFormula, h]
  rfl

namespace FormulaStore

variable {store store' store'' : FormulaStore} {text : Text} {asked asked' : List Text}

/-- The texts that have entries. -/
def texts (store : FormulaStore) : List Text := store.entries.map StoredFormula.text

theorem mem_texts_iff : text ∈ store.texts ↔ ∃ entry, store.find? text = some entry := by
  rw [← Option.isSome_iff_exists, find?, List.find?_isSome, texts, List.mem_map]
  simp only [beq_iff_eq]

/-- An entry holds what its text reads as. -/
theorem parse_of_find?_eq_some {entry : StoredFormula} (h : store.find? text = some entry) :
    Formula.parse text = .ok entry.formula := by
  rw [← text_of_find?_eq_some h]
  exact entry.reads

/-- **Reading a text through a store**: its entry is there, or it gets one, or it is no
formula. -/
theorem fetch_cases (store : FormulaStore) (text : Text) :
    (∃ entry, store.find? text = some entry ∧ store.fetch text = .ok (entry, store)) ∨
    (∃ formula reads absent,
      store.fetch text = .ok (store.insert text formula reads absent)) ∨
    ∃ cause, Formula.parse text = .error cause ∧ store.fetch text = .error cause := by
  -- a formula that is stored is given out, and what is not stored is read
  unfold fetch
  split
  · rename_i entry hfind
    exact Or.inl ⟨entry, hfind, rfl⟩
  · rename_i habsent
    split
    · rename_i formula hreads
      exact Or.inr (Or.inl ⟨formula, hreads, habsent, rfl⟩)
    · rename_i cause hfails
      exact Or.inr (Or.inr ⟨cause, hfails, rfl⟩)

theorem fetch_of_find?_eq_some {entry : StoredFormula} (h : store.find? text = some entry) :
    store.fetch text = .ok (entry, store) := by
  rcases store.fetch_cases text with ⟨entry', hfind, hfetch⟩ | ⟨_, _, absent, _⟩ |
    ⟨cause, hparse, _⟩
  · rw [h] at hfind
    cases hfind
    exact hfetch
  · rw [h] at absent
    cases absent
  · rw [parse_of_find?_eq_some h] at hparse
    cases hparse

/-! ### How a store grows -/

/-- **A store has grown** by reading texts. -/
structure GrownBy (store : FormulaStore) (asked : List Text) (store' : FormulaStore) : Prop where
  /-- Nothing is removed or replaced; the numbers of what is new were never given out. -/
  entries : ∃ made, store'.entries = store.entries ++ made ∧
    ∀ entry ∈ made, store.issued ≤ entry.serial
  issued_le : store.issued ≤ store'.issued
  /-- What is new are the formulas among the texts. -/
  mem_iff : ∀ text, text ∈ store'.texts ↔
    text ∈ store.texts ∨ text ∈ asked ∧ isFormula text = true

/-- A store stays as it is if the formulas among the texts have entries. -/
theorem GrownBy.refl (h : ∀ text ∈ asked, isFormula text = true → text ∈ store.texts) :
    store.GrownBy asked store where
  entries := ⟨[], by simp, by simp⟩
  issued_le := Nat.le_refl _
  mem_iff text := by
    constructor
    · exact Or.inl
    · rintro (hmem | ⟨hmem, hformula⟩)
      · exact hmem
      · exact h text hmem hformula

theorem GrownBy.trans (h : store.GrownBy asked store') (h' : store'.GrownBy asked' store'') :
    store.GrownBy (asked ++ asked') store'' := by
  obtain ⟨made, hmade, hserial⟩ := h.entries
  obtain ⟨made', hmade', hserial'⟩ := h'.entries
  -- what is added twice is added behind, and the serial numbers go on
  refine ⟨⟨made ++ made', ?_, ?_⟩, Nat.le_trans h.issued_le h'.issued_le, ?_⟩
  · rw [hmade', hmade, List.append_assoc]
  · intro entry hentry
    rcases List.mem_append.1 hentry with hentry | hentry
    · exact hserial entry hentry
    · exact Nat.le_trans h.issued_le (hserial' entry hentry)
  · intro text
    rw [h'.mem_iff, h.mem_iff, List.mem_append, or_and_right, or_assoc]

theorem grownBy_insert {formula : Formula} (reads : Formula.parse text = .ok formula)
    (absent : store.find? text = none) :
    store.GrownBy [text] (store.insert text formula reads absent).2 where
  entries := ⟨[(store.insert text formula reads absent).1], rfl, by
    intro entry hentry
    rw [List.mem_singleton.1 hentry]
    exact Nat.le_refl _⟩
  issued_le := Nat.le_succ _
  mem_iff other := by
    change other ∈ (store.entries ++ [_]).map StoredFormula.text ↔ _
    rw [List.map_append, List.mem_append, List.map_singleton, List.mem_singleton]
    refine or_congr_right ⟨?_, And.left⟩
    rintro rfl
    exact ⟨rfl, isFormula_of_parse reads⟩

/-- **An entry stays** while the store grows: it is found again as it was. -/
theorem GrownBy.find?_eq_some {entry : StoredFormula} (h : store.GrownBy asked store')
    (hfind : store.find? text = some entry) : store'.find? text = some entry := by
  obtain ⟨made, hmade, -⟩ := h.entries
  unfold find? at hfind ⊢
  rw [hmade, List.find?_append, hfind]
  rfl

/-- An entry that is new has a number that was never given out. -/
theorem GrownBy.issued_le_serial {entry : StoredFormula} (h : store.GrownBy asked store')
    (habsent : store.find? text = none) (hfind : store'.find? text = some entry) :
    store.issued ≤ entry.serial := by
  obtain ⟨made, hmade, hserial⟩ := h.entries
  unfold find? at habsent hfind
  rw [hmade, List.find?_append, habsent, Option.none_or] at hfind
  exact hserial entry (List.mem_of_find?_eq_some hfind)

theorem fetch_spec (store : FormulaStore) (text : Text) :
    (∃ entry store', store.fetch text = .ok (entry, store') ∧
      Formula.parse text = .ok entry.formula ∧ store'.find? text = some entry ∧
      store.GrownBy [text] store') ∨
    ∃ cause, store.fetch text = .error cause ∧ Formula.parse text = .error cause := by
  -- in each of the three ways the answer is that of reading the text
  rcases store.fetch_cases text with ⟨entry, hfind, hfetch⟩ | ⟨formula, reads, absent, hfetch⟩ |
    ⟨cause, hparse, hfetch⟩
  · refine Or.inl ⟨entry, store, hfetch, parse_of_find?_eq_some hfind, hfind, .refl ?_⟩
    intro other hother _
    rw [List.mem_singleton.1 hother]
    exact mem_texts_iff.2 ⟨entry, hfind⟩
  · refine Or.inl ⟨_, _, hfetch, reads, ?_, grownBy_insert reads absent⟩
    change (store.entries ++ [_]).find? _ = _
    unfold find? at absent
    rw [List.find?_append, absent, Option.none_or]
    exact List.find?_cons_of_pos (beq_self_eq_true _)
  · exact Or.inr ⟨cause, hfetch, hparse⟩

end FormulaStore

/-! ### Making rules ready -/

/-- **A rule made ready**, if it is switched on and its formula reads. -/
def Rule.ready? (settings : Settings) (rule : Rule) : Option ReadyRule :=
  if rule.active then (Formula.parse rule.formula).toOption.map (rule.ready settings) else none

/-- **What a rule is reported with**, if it is switched on and its formula does not read. -/
def Rule.issue? (rule : Rule) : Option Issue :=
  if rule.active then
    match Formula.parse rule.formula with
    | .ok _ => none
    | .error cause => some ⟨rule, cause⟩
  else none

/-- The formulas that are read for rules, in order. -/
def Rule.formulas (rules : List Rule) : List Text := (rules.filter Rule.active).map Rule.formula

/-- **One rule more**: what becomes of it depends on the rule alone, and the store grows by its
formula. -/
theorem prepare_cons (settings : Settings) (rule : Rule) (rest : List Rule)
    (store : FormulaStore) :
    ∃ store', store.GrownBy (Rule.formulas [rule]) store' ∧
      prepare settings (rule :: rest) store
        = let others := prepare settings rest store'
          { others with
            ready := (rule.ready? settings).toList ++ others.ready
            issues := rule.issue?.toList ++ others.issues } := by
  rw [prepare]
  unfold Rule.ready? Rule.issue? Rule.formulas
  -- a rule that is switched off is passed over, as if it were not there
  by_cases hactive : rule.active = true
  · rw [List.filter_cons_of_pos hactive, if_pos hactive, if_pos hactive, if_pos hactive]
    rcases store.fetch_spec rule.formula with ⟨entry, store', hfetch, hparse, -, hgrown⟩ |
      ⟨cause, hfetch, hparse⟩
    · refine ⟨store', hgrown, ?_⟩
      rw [hfetch, hparse]
      rfl
    · -- a text that is no formula leaves the store as it was
      refine ⟨store, .refl fun text htext hformula => ?_, ?_⟩
      · rw [List.mem_singleton.1 htext, isFormula_eq_false_of_parse hparse] at hformula
        cases hformula
      · rw [hfetch, hparse]
        rfl
  · rw [List.filter_cons_of_neg hactive, if_neg hactive, if_neg hactive, if_neg hactive]
    exact ⟨store, .refl (by simp), rfl⟩

/-- **Making rules ready**: what becomes of a rule depends on the rule alone, and the store
grows by the formulas that are read. -/
theorem prepare_spec (settings : Settings) (rules : List Rule) (store : FormulaStore) :
    (prepare settings rules store).ready = rules.filterMap (Rule.ready? settings) ∧
    (prepare settings rules store).issues = rules.filterMap Rule.issue? ∧
    store.GrownBy (Rule.formulas rules) (prepare settings rules store).store := by
  -- whatever the store is, as it may change from rule to rule
  induction rules generalizing store with
  | nil => exact ⟨rfl, rfl, .refl (by simp [Rule.formulas])⟩
  | cons rule rest ih =>
    obtain ⟨store', hgrown, hstep⟩ := prepare_cons settings rule rest store
    obtain ⟨hready, hissues, hrest⟩ := ih store'
    -- the formulas that are asked for are those of this rule and those of the others
    have hformulas : Rule.formulas (rule :: rest)
        = Rule.formulas [rule] ++ Rule.formulas rest := by
      unfold Rule.formulas
      rw [← List.map_append, ← List.filter_append, List.singleton_append]
    rw [hstep, List.filterMap_cons, List.filterMap_cons, hformulas, ← hready, ← hissues]
    refine ⟨?_, ?_, hgrown.trans hrest⟩
    · cases rule.ready? settings <;> rfl
    · cases rule.issue? <;> rfl

theorem Rule.ready?_eq_some_iff {settings : Settings} {rule : Rule} {ready : ReadyRule} :
    rule.ready? settings = some ready ↔ rule.active = true ∧
      ∃ formula, Formula.parse rule.formula = .ok formula ∧
        ready = rule.ready settings formula := by
  unfold Rule.ready?
  split
  · rename_i hactive
    rw [Option.map_eq_some_iff]
    simp only [toOption_eq_some_iff, hactive, true_and]
    exact exists_congr fun formula => and_congr_right fun _ => eq_comm
  · rename_i hactive
    exact iff_of_false (by simp) fun h => hactive h.1

/-- **The rules that are made ready** are those switched on whose formula reads. What the
store holds has no influence. -/
theorem mem_ready_prepare {settings : Settings} {rules : List Rule} {store : FormulaStore}
    {ready : ReadyRule} :
    ready ∈ (prepare settings rules store).ready ↔
      ∃ rule ∈ rules, rule.active = true ∧
        ∃ formula, Formula.parse rule.formula = .ok formula ∧
          ready = rule.ready settings formula := by
  rw [(prepare_spec settings rules store).1, List.mem_filterMap]
  simp only [Rule.ready?_eq_some_iff]

end AssayRules
