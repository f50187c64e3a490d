import AssayRules.Formula

/-!
# Formulas read once

The same rule is applied to many tables, so the formulas that have been read are
**stored** under their text. A store answers with the entry that was made when a text
was first read, until it is cleared; a text that is no formula leaves no trace.

Entries have an identity. Each gets a serial number when it is made, and numbers are
never given out twice, not even after clearing: two answers with one number are the
same entry, and a text read again after clearing has a new one.

That an entry holds what its text reads as is part of what an entry is
(`StoredFormula.reads`), so no use of a store can make an answer depend on what was
stored before.
-/

namespace AssayRules

/-- **A stored formula.** -/
structure StoredFormula where
  /-- The text it was read from. -/
  text : Text
  /-- The number of the entry. -/
  serial : Nat
  /-- The formula. -/
  formula : Formula
  /-- The formula is what the text reads as. -/
  reads : Formula.parse text = .ok formula

/-- **A store of formulas**, in the order they were first read. -/
structure FormulaStore where
  /-- The entries since the store was last cleared. -/
  entries : List StoredFormula
  /-- How many entries were ever made. -/
  issued : Nat
  /-- No text has two entries. -/
  nodup : (entries.map StoredFormula.text).Nodup
  /-- Every number that is in use has been given out. -/
  serial_lt : ∀ entry ∈ entries, entry.serial < issued

namespace FormulaStore

/-- A store in which nothing was ever stored. -/
def empty : FormulaStore := ⟨[], 0, List.nodup_nil, by simp⟩

/-- How many formulas are stored. -/
def size (store : FormulaStore) : Nat := store.entries.length

/-- **The entry of a text**, if it has one. -/
def find? (store : FormulaStore) (text : Text) : Option StoredFormula :=
  store.entries.find? fun entry => entry.text == text

/-- An entry for a text that has none. -/
def insert (store : FormulaStore) (text : Text) (formula : Formula)
    (reads : Formula.parse text = .ok formula) (absent : store.find? text = none) :
    StoredFormula × FormulaStore :=
  let entry : StoredFormula := ⟨text, store.issued, formula, reads⟩
  (entry, {
    entries := store.entries ++ [entry]
    issued := store.issued + 1
    nodup := by
      rw [List.map_append, List.nodup_append]
      refine ⟨store.nodup, by simp, fun a ha b hb => ?_⟩
      simp only [List.map_cons, List.map_nil, List.mem_singleton] at hb
      obtain ⟨other, hother, rfl⟩ := List.mem_map.1 ha
      rintro rfl
      exact List.find?_eq_none.1 absent other hother (beq_iff_eq.2 hb)
    serial_lt := by
      intro other hother
      rcases List.mem_append.1 hother with h | h
      · exact Nat.lt_succ_of_lt (store.serial_lt other h)
      · rw [List.mem_singleton.1 h]
        exact Nat.lt_succ_self _ })

/-- **Reading through a store**: the entry of the text, made now if there is none, and
the store afterwards. A text that is no formula is not stored. -/
def fetch (store : FormulaStore) (text : Text) :
    Except Malformed (StoredFormula × FormulaStore) :=
  match absent : store.find? text with
  | some entry => .ok (entry, store)
  | none =>
    match reads : Formula.parse text with
    | .ok formula => .ok (store.insert text formula reads absent)
    | .error cause => .error cause

/-- Forgetting all entries. -/
def clear (store : FormulaStore) : FormulaStore := ⟨[], store.issued, List.nodup_nil, by simp⟩

/-! ### First facts -/

@[simp] theorem size_empty : empty.size = 0 := rfl

@[simp] theorem size_clear (store : FormulaStore) : store.clear.size = 0 := rfl

@[simp] theorem find?_empty (text : Text) : empty.find? text = none := rfl

@[simp] theorem find?_clear (store : FormulaStore) (text : Text) :
    store.clear.find? text = none := rfl

/-- An entry is found under its own text. -/
theorem text_of_find?_eq_some {store : FormulaStore} {text : Text} {entry : StoredFormula}
    (h : store.find? text = some entry) : entry.text = text := by
  have found := List.find?_some h
  exact beq_iff_eq.1 found

end FormulaStore

end AssayRules
