import AssayRules.Proofs.Formula

/-!
# Formulas read back

The text of a formula has its sides without the blanks they were entered with and one blank on
either side of the comparison, and reads as the formula it was made from (`parse_text`). This
holds of any bytes, so that there are no lexemes to go by, and the argument is about cutting
alone.

What is in front of the first comparison was passed over, segment by segment, and so was what
is behind the last one (`exists_of_cut`, `isPassed_of_cut`). Blanks are passed over wherever
they stand. So what cutting asks of a side is asked of the side without the blanks at its ends,
and a text is read as a given formula exactly if it has the sides of that formula, with any
blanks around them, on the two sides of its comparison (`parse_eq_ok_iff_padded`).
-/

namespace AssayRules

/-! ### Blanks around a side -/

/-- The segments in front of others are those of their own text. -/
theorem segments_flatMap_text {s : Text} {parts rest : List Segment}
    (h : segments s = parts ++ rest) (hclosed : parts.any Segment.isUnclosed = false) :
    segments (parts.flatMap Segment.text) = parts := by
  -- along the segments of the text, each of which is cut off again as it was
  fun_induction segments s generalizing parts with
  | case1 =>
    obtain ⟨rfl, -⟩ := List.append_eq_nil_iff.1 h.symm
    exact segments_nil
  | case2 c s hc hnone =>
    cases parts with
    | nil => exact segments_nil
    | cons part parts =>
      obtain ⟨rfl, -⟩ := List.cons.inj h
      cases hclosed
  | case3 c s hc inside after hsome ih =>
    cases parts with
    | nil => exact segments_nil
    | cons part parts =>
      obtain ⟨rfl, hrest⟩ := List.cons.inj h
      -- the reference ends at the bracket that it was cut at
      have hinside := Text.notMem_of_splitAt?_eq_some hsome
      rw [List.flatMap_cons, segments_reference_append hinside, ih hrest hclosed]
  | case4 c s hc ih =>
    cases parts with
    | nil => exact segments_nil
    | cons part parts =>
      obtain ⟨rfl, hrest⟩ := List.cons.inj h
      have hcons : segments (c :: parts.flatMap Segment.text)
          = .byte c :: segments (parts.flatMap Segment.text) := by
        rw [segments, if_neg hc]
      exact hcons.trans (congrArg _ (ih hrest hclosed))

/-- Blanks are passed over, and open nothing. -/
theorem isPassed_of_isSpace {b : Text} (h : ∀ c ∈ b, Ascii.isSpace c = true) :
    (∀ part ∈ b.map Segment.byte, part.isPassed = true) ∧
      ((b.map Segment.byte).map Segment.parenStep).sum = 0 := by
  refine ⟨List.forall_mem_map.2 fun c hc => ?_, sum_parenStep_map_byte fun c hc => ?_⟩
  · have hplain : Lexeme.isPlain c = true :=
      Lexeme.isPlain_of_mem_text (l := .blank c (h c hc)) (by rintro _ _ ⟨⟩)
        (List.mem_singleton_self c)
    rw [Segment.isPassed, Comparison.opens_of_isPlain hplain]
    rfl
  · constructor <;> rintro rfl <;> cases h _ hc

/-- **Blanks at the ends make no difference** to what cutting asks of a side. -/
theorem isPassed_trim {s : Text} (h : (segments s.trim).any Segment.isUnclosed = false) :
    ((∀ part ∈ segments s, part.isPassed = true) ↔
        ∀ part ∈ segments s.trim, part.isPassed = true) ∧
      ((segments s).map Segment.parenStep).sum
        = ((segments s.trim).map Segment.parenStep).sum := by
  obtain ⟨before, behind, hbefore, hbehind, hs⟩ := exists_segments_trim h
  obtain ⟨hpassed, hsum⟩ := isPassed_of_isSpace hbefore
  obtain ⟨hpassed', hsum'⟩ := isPassed_of_isSpace hbehind
  -- blanks are passed over, and they are no parentheses
  constructor
  · rw [hs, List.forall_mem_append, List.forall_mem_append]
    exact ⟨fun hall => hall.2.1, fun hall => ⟨hpassed, hall, hpassed'⟩⟩
  · rw [hs, List.map_append, List.map_append, List.sum_append, List.sum_append, hsum, hsum',
      Int.zero_add, Int.add_zero]

/-! ### The text of a formula -/

namespace Formula

/-- **What reading asks of the sides of a formula**, whatever blanks are around them. -/
structure IsReadable (formula : Formula) : Prop where
  left_ne_nil : formula.left ≠ []
  right_ne_nil : formula.right ≠ []
  /-- No comparison opens on either side. -/
  left_passed : ∀ part ∈ segments formula.left, part.isPassed = true
  right_passed : ∀ part ∈ segments formula.right, part.isPassed = true
  /-- The comparison stands outside all parentheses. -/
  balanced : ((segments formula.left).map Segment.parenStep).sum = 0
  /-- The sides are arithmetic, and the variables of the formula are theirs. -/
  sides : ofSides formula.left formula.comparison formula.right = .ok formula

/-- **A text is read as a formula** exactly if it has the sides of the formula, with any blanks
around them, before and behind its comparison. -/
theorem parse_eq_ok_iff_padded {s : Text} {formula : Formula} :
    parse s = .ok formula ↔ formula.IsReadable ∧
      ∃ front behind, s = front ++ formula.comparison.text ++ behind ∧
        front.trim = formula.left ∧ behind.trim = formula.right := by
  rw [parse_eq_ok_iff]
  constructor
  · -- what was cut is put together again, and each side is trimmed to that of the formula
    rintro ⟨front, comparison, behind, hcut, hfront, hbehind, hsides⟩
    obtain ⟨leftVariables, rightVariables, hleft, hright, rfl⟩ := ofSides_eq_ok_iff.1 hsides
    have htrim := closed_of_references_eq_ok hleft.1
    have htrim' := closed_of_references_eq_ok hright.1
    have hs := eq_of_cut_segments hcut
    obtain ⟨before, rest, hparts, hpassed, htext, hdepth, hrest⟩ := exists_of_cut hcut
    -- what was passed over in front of the comparison and behind it are the two sides
    obtain rfl : before = segments front := by
      rw [← htext, segments_flatMap_text hparts (closed_of_isPassed hpassed)]
    obtain rfl : rest = segments behind := by
      rw [hs, segments_append_comparison (closed_of_isPassed hpassed)] at hparts
      exact (List.append_cancel_left (List.append_cancel_left hparts)).symm
    obtain ⟨hiff, hsum⟩ := isPassed_trim htrim
    refine ⟨⟨hfront, hbehind, hiff.1 hpassed, ?_, ?_, hsides⟩, front, behind, hs, rfl, rfl⟩
    · exact (isPassed_trim htrim').1.1 (isPassed_of_cut hrest)
    · rw [← hsum]
      exact (hdepth.trans (Int.zero_add _)).symm
  · -- what reading asks of the trimmed sides is true of them with the blanks around
    rintro ⟨h, front, behind, rfl, hfront, hbehind⟩
    have htrim := closed_of_isPassed h.left_passed
    have htrim' := closed_of_isPassed h.right_passed
    rw [← hfront] at htrim
    rw [← hbehind] at htrim'
    obtain ⟨hiff, hsum⟩ := isPassed_trim htrim
    refine ⟨front, formula.comparison, behind, cut_sides ?_ ?_ ?_ _, ?_, ?_, ?_⟩
    · exact hiff.2 (hfront ▸ h.left_passed)
    · rw [hsum, hfront]
      exact h.balanced
    · exact (isPassed_trim htrim').1.2 (hbehind ▸ h.right_passed)
    · rw [hfront]
      exact h.left_ne_nil
    · rw [hbehind]
      exact h.right_ne_nil
    · rw [hfront, hbehind]
      exact h.sides

/-- **The text of a formula reads as the formula** it was made from, whatever text that was
read from. -/
theorem parse_text {s : Text} {formula : Formula} (h : parse s = .ok formula) :
    parse formula.text = .ok formula := by
  obtain ⟨hreadable, front, behind, -, hfront, hbehind⟩ := parse_eq_ok_iff_padded.1 h
  have hblank : ∀ c ∈ [Ascii.space], Ascii.isSpace c = true :=
    List.forall_mem_singleton.2 rfl
  refine parse_eq_ok_iff_padded.2 ⟨hreadable, formula.left ++ [Ascii.space],
    [Ascii.space] ++ formula.right, ?_, ?_, ?_⟩
  · rw [text, ← List.append_assoc]
  · rw [Text.trim_append_right hblank, ← hfront, Text.trim_trim]
  · rw [Text.trim_append_left hblank, ← hbehind, Text.trim_trim]

/-- Blanks of all kinds around the sides, a comparison in a bracket, and bytes that are not
UTF-8. -/
theorem parse_text_of_crowded :
    let formula : Formula := ⟨utf8 "[a>b] *2", .atLeast, utf8 "Fe" ++ [0xFF],
      [utf8 "a>b"], [utf8 "Fe" ++ [0xFF]]⟩
    parse (utf8 "\t[a>b] *2>=\n Fe" ++ [0xFF] ++ utf8 " ") = .ok formula ∧
      parse (utf8 "[a>b] *2 >= Fe" ++ [0xFF]) = .ok formula := by
  intro formula
  have hparse : parse (utf8 "\t[a>b] *2>=\n Fe" ++ [0xFF] ++ utf8 " ") = .ok formula :=
    toOption_eq_some_iff.1 (by decide +kernel)
  exact ⟨hparse, parse_text hparse⟩

end Formula

end AssayRules
