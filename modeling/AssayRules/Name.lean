import AssayRules.Text.Basic

/-!
# Variable names

A variable is known by its **canonical** spelling: no blanks at either end and no
commas at the end, since both are habits of typing and not part of a name. One
round of stripping commas between two rounds of trimming is all that is done; a
name that ends in a mixture of commas and blanks keeps some of it, and keeps it
the same way wherever it is read.

In an expression a variable may be written **bare**, as a run of word bytes and
blanks that begins with a name start, or in brackets. This file finds the bare
ones; `AssayRules.Reference` adds the brackets.
-/

namespace AssayRules

namespace Name

/-- **The canonical spelling** of a name: trimmed, without the commas then at its
end, and trimmed again. -/
def canonical (name : Text) : Text :=
  Text.trim (Text.dropEndWhile (· == Ascii.comma) (Text.trim name))

/-- The **reserved words**. They have the form of a name and denote no variable. -/
def reservedWords : List Text :=
  [utf8 "true", utf8 "false", utf8 "null", utf8 "undefined", utf8 "NaN", utf8 "Infinity"]

/-- Reserved words are reserved as they are spelled, in this letter case alone. -/
def isReserved (word : Text) : Bool := reservedWords.contains word

/-- The bytes a bare name runs on over: those of words, and the blanks that may
stand between the words of one name. -/
def continuesName (c : UInt8) : Bool := Ascii.isWord c || c == Ascii.space || c == Ascii.tab

/-- **Bare names** of a text, trimmed, in order of appearance. A name begins at the
first byte of a word and runs as far as words and blanks go. A word that begins with
a digit is no name, and no name begins inside it. -/
def bareNames : Text → List Text
  | [] => []
  | c :: rest =>
    if Ascii.isNameStart c then
      let name := Text.trim (c :: rest.takeWhile continuesName)
      let others := bareNames (rest.dropWhile continuesName)
      if isReserved name then others else name :: others
    else if Ascii.isWord c then bareNames (rest.dropWhile Ascii.isWord)
    else bareNames rest
termination_by s => s.length
decreasing_by
  all_goals
    simp only [List.length_cons]
    have h := (List.dropWhile_suffix continuesName (l := rest)).length_le
    have h' := (List.dropWhile_suffix Ascii.isWord (l := rest)).length_le
    omega

/-! ### First facts -/

@[simp] theorem canonical_nil : canonical [] = [] := rfl

@[simp] theorem bareNames_nil : bareNames [] = [] := by unfold bareNames; rfl

/-- Nothing reserved is ever found as a name. -/
theorem not_isReserved_of_mem_bareNames {s name : Text} (h : name ∈ bareNames s) :
    isReserved name = false := by
  fun_induction bareNames s with
  | case1 => simp at h
  | case2 c rest _ found others reserved ih => exact ih h
  | case3 c rest _ found others reserved ih =>
    rcases List.mem_cons.1 h with rfl | h
    · simpa using reserved
    · exact ih h
  | case4 c rest _ _ ih => exact ih h
  | case5 c rest _ _ ih => exact ih h

/-- A word that begins with a digit is passed over, and so is a reserved word. -/
example : bareNames (utf8 "NaN + _Fe\ttotal * 2e5 - nan") = [utf8 "_Fe\ttotal", utf8 "nan"] := by
  decide +kernel

end Name

end AssayRules
