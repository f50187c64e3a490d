import AssayRules.Proofs.Characters
import AssayRules.Proofs.Names

/-!
# What canonical spelling strips

A name is entered with blanks around it and commas and blanks behind it. Canonical spelling takes
them off, so that the trimmed name is the canonical one with nothing but such bytes behind it
(`Name.exists_stripped`). One round may leave some of them, and a name may be its own canonical
spelling or not; if it is, it ends with none of them (`Name.getLast?_of_canonical_eq`).

What is stripped has no letter case. So two spellings that agree up to case agree in what there is
to strip, and the canonical spellings behind them agree as well (`Name.foldCase_eq_of_stripped`).
-/

namespace AssayRules

namespace Name

/-- **The bytes that canonical spelling strips** from the end of a name. -/
def isTrailing (c : UInt8) : Bool := Ascii.isSpace c || c == Ascii.comma

variable {name name' : Text} {stripped stripped' : Text}

/-- Blanks around a name are no part of it. -/
theorem canonical_trim (entered : Text) : canonical entered.trim = canonical entered := by
  rw [canonical, Text.trim_trim, canonical]

theorem trim_canonical (entered : Text) : (canonical entered).trim = canonical entered :=
  Text.trim_trim _

/-- Once the commas are gone, there is nothing but blanks behind the canonical spelling. -/
theorem exists_append_canonical (entered : Text) : ∃ blanks,
    Text.dropEndWhile (· == Ascii.comma) entered.trim = canonical entered ++ blanks ∧
      ∀ c ∈ blanks, Ascii.isSpace c = true := by
  obtain ⟨commas, hcommas, -⟩ := Text.exists_append_dropEndWhile (· == Ascii.comma) entered.trim
  obtain ⟨before, blanks, hmiddle, hbefore, hblanks⟩ :=
    Text.exists_trim (Text.dropEndWhile (· == Ascii.comma) entered.trim)
  change _ = before ++ canonical entered ++ blanks at hmiddle
  -- there is nothing in front, as the name is trimmed
  obtain rfl : before = [] := by
    cases before with
    | nil => rfl
    | cons c before =>
      have hhead := Text.head?_trim entered
      rw [hcommas, hmiddle] at hhead
      simp only [List.cons_append, List.head?_cons, Option.any_some] at hhead
      rw [hbefore c List.mem_cons_self] at hhead
      cases hhead
  exact ⟨blanks, hmiddle, hblanks⟩

/-- **What is entered is the canonical spelling** with bytes behind it that are stripped. -/
theorem exists_stripped (entered : Text) : ∃ stripped,
    entered.trim = canonical entered ++ stripped ∧ ∀ c ∈ stripped, isTrailing c = true := by
  obtain ⟨commas, hcommas, hcomma⟩ :=
    Text.exists_append_dropEndWhile (· == Ascii.comma) entered.trim
  obtain ⟨blanks, hblanks, hblank⟩ := exists_append_canonical entered
  -- what is stripped is the blanks in front of the commas and then the commas
  refine ⟨blanks ++ commas, ?_, fun c hc => ?_⟩
  · calc entered.trim
        = Text.dropEndWhile (· == Ascii.comma) entered.trim ++ commas := hcommas
      _ = (canonical entered ++ blanks) ++ commas := congrArg (· ++ commas) hblanks
      _ = canonical entered ++ (blanks ++ commas) := List.append_assoc ..
  · rw [isTrailing, Bool.or_eq_true]
    rcases List.mem_append.1 hc with hc | hc
    · exact Or.inl (hblank c hc)
    · exact Or.inr (hcomma c hc)

/-- **A name that is its own canonical spelling** ends with nothing that is stripped. -/
theorem getLast?_of_canonical_eq (h : canonical name = name) :
    name.getLast?.any isTrailing = false := by
  have htrim : name.trim = name := by rw [← h, trim_canonical]
  have hspace := Text.getLast?_trim name
  -- no comma was dropped either, as the name would be shorter without it
  have hcomma : Text.dropEndWhile (· == Ascii.comma) name = name := by
    obtain ⟨commas, hcommas, -⟩ := Text.exists_append_dropEndWhile (· == Ascii.comma) name
    have hlength : name.length ≤ (Text.dropEndWhile (· == Ascii.comma) name).length := by
      calc name.length = (canonical name).length := by rw [h]
        _ ≤ (Text.dropEndWhile (· == Ascii.comma) name.trim).length := Text.length_trim_le
        _ = (Text.dropEndWhile (· == Ascii.comma) name).length := by rw [htrim]
    exact ((List.prefix_append _ commas).eq_of_length_le (hcommas ▸ hlength)).trans hcommas.symm
  have hlast := Text.getLast?_dropEndWhile (p := (· == Ascii.comma)) (s := name)
  rw [htrim] at hspace
  rw [hcomma] at hlast
  -- the last byte is neither blank nor comma, for each of the two reasons
  cases hc : name.getLast? with
  | none => rfl
  | some c =>
    rw [hc, Option.any_some] at hspace hlast
    rw [Option.any_some, isTrailing, hspace, hlast]
    rfl

end Name

/-- A blank or a comma is no letter, and neither is a byte outside ASCII one of them. -/
theorem Caseless.isTrailing : Caseless Name.isTrailing where
  lower c := by
    simp only [Name.isTrailing, Ascii.isSpace, Ascii.toLower, Ascii.isUpper]
    grind
  wide c h := by
    simp only [Name.isTrailing, Ascii.isSpace]
    grind

namespace Name

variable {name name' : Text} {stripped stripped' : Text}

theorem lt_of_isTrailing {c : UInt8} (h : isTrailing c = true) : c < 0x80 := by
  simp only [isTrailing, Ascii.isSpace] at h
  grind

/-- **Folding leaves alone** what is stripped. -/
theorem foldCase_of_isTrailing {s : Text} (h : ∀ c ∈ s, isTrailing c = true) :
    s.foldCase = s := by
  -- the bytes that are stripped are ASCII without case
  have hlower : ∀ c, isTrailing c = true → Ascii.toLower c = c := by
    intro c hc
    simp only [isTrailing, Ascii.isSpace] at hc
    grind [Ascii.toLower, Ascii.isUpper]
  fun_induction Text.foldCase s with
  | case1 => rfl
  | case2 c => rw [hlower c (h c List.mem_cons_self)]
  | case3 c d rest hpair _ =>
    have hc := lt_of_isTrailing (h c List.mem_cons_self)
    grind [isTwoByteLead]
  | case4 c d rest _ ih =>
    rw [hlower c (h c List.mem_cons_self), ih fun b hb => h b (List.mem_cons_of_mem _ hb)]

/-- **Folding goes by the two parts** of what is entered, whether it is UTF-8 or not. -/
theorem foldCase_append_stripped (s : Text) (h : ∀ c ∈ stripped, isTrailing c = true) :
    (s ++ stripped).foldCase = s.foldCase ++ stripped := by
  have hhead : stripped.head?.any isContinuation = false := by
    cases stripped with
    | nil => rfl
    | cons c stripped =>
      have hc := lt_of_isTrailing (h c List.mem_cons_self)
      grind [isContinuation]
  rw [Text.foldCase_append hhead, foldCase_of_isTrailing h]

/-- **A folded name** ends with nothing that is stripped, if the name is its own canonical
spelling. -/
theorem getLast?_foldCase (hname : name.IsUtf8) (h : canonical name = name) :
    name.foldCase.getLast?.any isTrailing = false := by
  rw [Caseless.isTrailing.any_getLast?_foldCase hname, getLast?_of_canonical_eq h]

/-- A name that agrees up to case with what is entered agrees with its canonical spelling, and
nothing was stripped. -/
theorem eq_nil_of_foldCase_eq (hname : name.IsUtf8) (hcanonical : canonical name = name)
    (hstripped : ∀ c ∈ stripped, isTrailing c = true) {s : Text}
    (h : (s ++ stripped).foldCase = name.foldCase) : stripped = [] := by
  rw [foldCase_append_stripped s hstripped] at h
  by_contra hne
  have hlast := getLast?_foldCase hname hcanonical
  rw [← h, List.getLast?_append_of_ne_nil _ hne, List.getLast?_eq_some_getLast hne,
    Option.any_some, hstripped _ (List.getLast_mem hne)] at hlast
  cases hlast

/-- **Two names with what was behind them** agree up to case only if the names do, and the same
was behind both. -/
theorem foldCase_eq_of_stripped (hname : name.IsUtf8) (hcanonical : canonical name = name)
    (hname' : name'.IsUtf8) (hcanonical' : canonical name' = name')
    (hstripped : ∀ c ∈ stripped, isTrailing c = true)
    (hstripped' : ∀ c ∈ stripped', isTrailing c = true)
    (h : (name ++ stripped).foldCase = (name' ++ stripped').foldCase) :
    name.foldCase = name'.foldCase ∧ stripped = stripped' := by
  rw [foldCase_append_stripped _ hstripped, foldCase_append_stripped _ hstripped'] at h
  -- folding keeps what ends a name and what is stripped, so that the first can be told from the
  -- second
  have hfold : name.foldCase = name'.foldCase := by
    calc name.foldCase
        = Text.dropEndWhile isTrailing name.foldCase :=
          (Text.dropEndWhile_of_not (getLast?_foldCase hname hcanonical)).symm
      _ = Text.dropEndWhile isTrailing (name.foldCase ++ stripped) :=
          (Text.dropEndWhile_append_of_all hstripped).symm
      _ = Text.dropEndWhile isTrailing (name'.foldCase ++ stripped') := by rw [h]
      _ = Text.dropEndWhile isTrailing name'.foldCase := Text.dropEndWhile_append_of_all hstripped'
      _ = name'.foldCase := Text.dropEndWhile_of_not (getLast?_foldCase hname' hcanonical')
  refine ⟨hfold, ?_⟩
  rw [hfold] at h
  exact List.append_cancel_left h

end Name

end AssayRules
