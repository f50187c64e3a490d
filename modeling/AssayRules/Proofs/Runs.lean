import AssayRules.Proofs.Alike
import AssayRules.Proofs.Formula
import AssayRules.Proofs.Torn

/-!
# Runs of an expression

Names are looked for in what stands before, between and behind bracketed references, in each
such **run** by itself (`runs`). Once the brackets are replaced, the texts that are left are
runs, whatever the readings (`mem_runs_of_mem_referencePieces`).

Everything that a formula is taken apart into is UTF-8 if the formula is: brackets, blanks and
comparisons are ASCII, and a character is never divided at one. So are the sides
(`Formula.isUtf8_sides`), their runs (`Text.IsUtf8.of_mem_runs`) and their variables
(`Text.IsUtf8.of_mem_references`).
-/

namespace AssayRules

/-! ### Parts that are UTF-8 -/

namespace Text

variable {s t : Text}

theorem lt_of_isSpace (h : ∀ c ∈ s, Ascii.isSpace c = true) : ∀ c ∈ s, c < 0x80 := by
  intro c hc
  have hspace := h c hc
  by_contra hwide
  rw [Ascii.isSpace] at hspace
  grind

/-- **What ASCII stands around** is UTF-8 if the whole is. -/
theorem IsUtf8.of_ascii_around {a b : Text} (h : (a ++ (s ++ b)).IsUtf8)
    (ha : ∀ c ∈ a, c < 0x80) (hb : ∀ c ∈ b, c < 0x80) : s.IsUtf8 := by
  have hrest := h.of_append_left (isUtf8_of_ascii ha)
  exact (hrest.of_append_ascii fun c hc => hb c (List.mem_of_mem_head? hc)).1

theorem IsUtf8.trim (h : s.IsUtf8) : s.trim.IsUtf8 := by
  obtain ⟨before, behind, hs, hbefore, hbehind⟩ := exists_trim s
  rw [hs, List.append_assoc] at h
  exact h.of_ascii_around (lt_of_isSpace hbefore) (lt_of_isSpace hbehind)

theorem IsUtf8.canonical (h : s.IsUtf8) : (Name.canonical s).IsUtf8 := by
  obtain ⟨commas, hs, hcommas⟩ := exists_append_dropEndWhile (· == Ascii.comma) s.trim
  have htrim := h.trim
  rw [hs] at htrim
  refine IsUtf8.trim (IsUtf8.of_ascii_around (a := []) htrim (by simp) fun c hc => ?_)
  rw [eq_of_beq (hcommas c hc)]
  decide

/-- **Bare names** of a text that is UTF-8 are UTF-8. -/
theorem IsUtf8.of_mem_bareNames {name : Text} (hs : s.IsUtf8) (h : name ∈ Name.bareNames s) :
    name.IsUtf8 := by
  -- what ends a run or a word is ASCII
  have hcut : ∀ {p : UInt8 → Bool} {c : UInt8} {rest : Text}, (∀ c, 0x80 ≤ c → p c = true) →
      IsUtf8 (c :: rest) → IsUtf8 (c :: rest.takeWhile p) ∧ IsUtf8 (rest.dropWhile p) := by
    intro p c rest hp hutf8
    rw [← List.takeWhile_append_dropWhile (p := p) (l := rest), ← List.cons_append] at hutf8
    refine hutf8.of_append_ascii fun d hd => ?_
    have hnot := List.head?_dropWhile_not p rest
    rw [Option.mem_def.1 hd] at hnot
    by_contra hwide
    exact Bool.false_ne_true (hnot.symm.trans (hp d (UInt8.not_lt.1 hwide)))
  have hword : ∀ c, 0x80 ≤ c → Ascii.isWord c = true := fun c hc => Ascii.isWord_of_wide hc
  have hcontinues : ∀ c, 0x80 ≤ c → Name.continuesName c = true :=
    fun c hc => Name.continuesName_of_isWord (hword c hc)
  -- along the scan, where each stride is cut off in front of a byte of ASCII
  fun_induction Name.bareNames s with
  | case1 => cases h
  | case2 c rest hstart found others hreserved ih => exact ih (hcut hcontinues hs).2 h
  -- the run that a name is cut from is UTF-8, and trimming it leaves it so
  | case3 c rest hstart found others hreserved ih =>
    rcases List.mem_cons.1 h with rfl | h
    · exact (hcut hcontinues hs).1.trim
    · exact ih (hcut hcontinues hs).2 h
  | case4 c rest hstart hdigit ih => exact ih (hcut hword hs).2 h
  | case5 c rest hstart hdigit ih =>
    refine ih (IsUtf8.of_append_left (s := [c]) hs (isUtf8_singleton ?_)) h
    by_contra hwide
    exact hdigit (hword c (UInt8.not_lt.1 hwide))

/-- Blotting out the references, and what stands in them. -/
theorem IsUtf8.outside_and_inside {w : Text} (h : (w ++ s).IsUtf8) :
    (w ++ (segments s).map Segment.outside).IsUtf8 ∧
      ∀ inside, .reference inside ∈ segments s → inside.IsUtf8 := by
  have hspace : IsUtf8 [Ascii.space] := isUtf8_singleton (by decide)
  -- `w` is what has been gone through, with its references blotted out
  fun_induction segments s generalizing w with
  | case1 => exact ⟨h, by simp⟩
  | case2 c rest hc hnone =>
    obtain rfl := eq_of_beq hc
    have hw : w.IsUtf8 := (h.of_append_ascii (by rintro _ ⟨⟩; decide)).1
    exact ⟨hw.append hspace, by simp⟩
  | case3 c rest hc inside after hsome ih =>
    obtain rfl := eq_of_beq hc
    rw [eq_of_splitAt?_eq_some hsome] at h
    obtain ⟨hw, hrest⟩ := h.of_append_ascii (by rintro _ ⟨⟩; decide)
    have hopen : IsUtf8 [Ascii.leftBracket] := isUtf8_singleton (by decide)
    have hclose : IsUtf8 [Ascii.rightBracket] := isUtf8_singleton (by decide)
    -- between the brackets stands what the reference is to, cut off by ASCII on both sides
    obtain ⟨hinside, hafter⟩ := (hrest.of_append_left hopen).of_append_ascii
      (by rintro _ ⟨⟩; decide)
    obtain ⟨houtside, hothers⟩ := ih ((hw.append hspace).append (hafter.of_append_left hclose))
    rw [List.append_assoc] at houtside
    refine ⟨houtside, fun other hmem => ?_⟩
    rcases List.mem_cons.1 hmem with heq | hmem
    · cases heq
      exact hinside
    · exact hothers other hmem
  | case4 c rest hc ih =>
    rw [← List.singleton_append, ← List.append_assoc] at h
    obtain ⟨houtside, hothers⟩ := ih h
    rw [List.append_assoc] at houtside
    refine ⟨houtside, fun other hmem => ?_⟩
    rcases List.mem_cons.1 hmem with heq | hmem
    · cases heq
    · exact hothers other hmem

/-- **The variables** of an expression that is UTF-8. -/
theorem IsUtf8.of_mem_references {names : List Text} (hs : s.IsUtf8)
    (hnames : references s = .ok names) : ∀ name ∈ names, name.IsUtf8 := by
  intro name hname
  obtain ⟨houtside, hinside⟩ := IsUtf8.outside_and_inside (w := []) hs
  rcases ((mem_references_iff_refers hnames).1 hname).2 with ⟨inside, hmem, rfl⟩ | hmem
  · exact (hinside inside hmem).canonical
  · exact houtside.of_mem_bareNames hmem

end Text

/-- **The sides** of a formula that is UTF-8. -/
theorem Formula.isUtf8_sides {s : Text} {formula : Formula} (hs : s.IsUtf8)
    (hformula : parse s = .ok formula) : formula.left.IsUtf8 ∧ formula.right.IsUtf8 := by
  obtain ⟨front, comparison, behind, hcut, -, -, hsides⟩ := parse_eq_ok_iff.1 hformula
  obtain ⟨_, _, -, -, rfl⟩ := ofSides_eq_ok_iff.1 hsides
  -- the two sides are what stands around the comparison in the text
  have htext := Chain.text_of_cut hcut
  rw [flatMap_text_segments, Chain.text, List.flatMap_singleton] at htext
  rw [← htext] at hs
  have hall : comparison.text.all (· < 0x80) = true := by cases comparison <;> rfl
  have hascii : ∀ c ∈ comparison.text, c < 0x80 :=
    fun c hc => of_decide_eq_true (List.all_eq_true.1 hall c hc)
  -- the comparison is ASCII at both of its ends, so that no character is cut
  have hhead : ∀ c ∈ (comparison.text ++ behind).head?, c < 0x80 := by
    cases comparison <;> (rintro _ ⟨⟩; decide)
  obtain ⟨hfront, hrest⟩ := hs.of_append_ascii hhead
  exact ⟨hfront.trim, (hrest.of_append_left (Text.isUtf8_of_ascii hascii)).trim⟩

/-! ### Runs -/

/-- **The runs** of an expression: what stands before, between and behind its references. -/
def runs : List Segment → List Text
  | [] => [[]]
  | .byte c :: parts => (runs parts).modifyHead (c :: ·)
  | _ :: parts => [] :: runs parts

theorem exists_runs_eq_cons (parts : List Segment) : ∃ r others, runs parts = r :: others := by
  induction parts with
  | nil => exact ⟨[], [], rfl⟩
  | cons part parts ih =>
    obtain ⟨r, others, hruns⟩ := ih
    cases part with
    | byte c => exact ⟨c :: r, others, by rw [runs, hruns, List.modifyHead_cons]⟩
    | _ => exact ⟨[], runs parts, rfl⟩

theorem isUtf8_of_mem_runs_of_outside {w : Text} {parts : List Segment}
    (h : (w ++ parts.map Segment.outside).IsUtf8) :
    ∀ r ∈ (runs parts).modifyHead (w ++ ·), r.IsUtf8 := by
  -- segment by segment, with the run that is under way in front
  induction parts generalizing w with
  | nil => exact List.forall_mem_singleton.2 h
  | cons part parts ih =>
    rw [List.map_cons] at h
    -- where the next run begins there is a blank in what is known to be UTF-8
    have hreference : part.outside = Ascii.space → runs (part :: parts) = [] :: runs parts →
        ∀ r ∈ (runs (part :: parts)).modifyHead (w ++ ·), r.IsUtf8 := by
      intro hspace hruns
      rw [hspace] at h
      obtain ⟨hw, hrest⟩ := h.of_append_ascii (by rintro _ ⟨⟩; decide)
      have hothers := ih (w := []) (hrest.of_append_left
        (s := [Ascii.space]) (Text.isUtf8_singleton (by decide)))
      obtain ⟨r, others, heq⟩ := exists_runs_eq_cons parts
      rw [heq, List.modifyHead_cons] at hothers
      rw [hruns, heq, List.modifyHead_cons, List.append_nil]
      exact List.forall_mem_cons.2 ⟨hw, hothers⟩
    cases part with
    | byte c =>
      rw [← List.singleton_append, ← List.append_assoc] at h
      have hothers := ih h
      obtain ⟨r, others, heq⟩ := exists_runs_eq_cons parts
      rw [heq, List.modifyHead_cons, List.append_assoc] at hothers
      rwa [runs, heq, List.modifyHead_cons, List.modifyHead_cons]
    | reference inside => exact hreference rfl rfl
    | unclosed inside => exact hreference rfl rfl

/-- **The runs** of an expression that is UTF-8. -/
theorem Text.IsUtf8.of_mem_runs {s r : Text} (hs : s.IsUtf8) (hr : r ∈ runs (segments s)) :
    r.IsUtf8 := by
  refine isUtf8_of_mem_runs_of_outside (IsUtf8.outside_and_inside (w := []) hs).1 r ?_
  obtain ⟨first, others, heq⟩ := exists_runs_eq_cons (segments s)
  rwa [heq] at hr ⊢

variable {readings other : Readings} {parts : List Segment}

theorem exists_find?_of_missingReferences (h : missingReferences readings parts = [])
    {inside : Text} (hmem : .reference inside ∈ parts) :
    ∃ x, readings.find? (Name.canonical inside) = some x := by
  have hname : Name.canonical inside ∈ parts.filterMap Segment.name? :=
    List.mem_filterMap.2 ⟨_, hmem, rfl⟩
  have hcontains := List.filter_eq_nil_iff.1 h _ hname
  rw [Bool.not_eq_true, Bool.not_eq_false', Readings.contains] at hcontains
  exact Option.isSome_iff_exists.1 hcontains

/-- The first run is a text at the front, or it is empty; the other texts are among the other
runs. -/
theorem runs_cases (hclosed : parts.any Segment.isUnclosed = false)
    (h : missingReferences readings parts = []) : ∃ first others, runs parts = first :: others ∧
      ((first = [] ∧ (∀ s rest, referencePieces readings parts ≠ .text s :: rest) ∧
          ∀ r, .text r ∈ referencePieces readings parts → r ∈ others ∧ r ≠ []) ∨
        first ≠ [] ∧ ∃ rest, referencePieces readings parts = .text first :: rest ∧
          ∀ r, .text r ∈ rest → r ∈ others ∧ r ≠ []) := by
  -- from behind, with the first run kept apart, as a byte in front may still lengthen it
  induction parts with
  | nil =>
    have hnil : referencePieces readings [] = [] := rfl
    exact ⟨[], [], rfl, Or.inl ⟨rfl, by simp [hnil], by simp [hnil]⟩⟩
  | cons part parts ih =>
    obtain ⟨hfirst, hclosed⟩ := Bool.or_eq_false_iff.1 (List.any_cons ▸ hclosed)
    have hparts : missingReferences readings parts = [] := by
      refine List.filter_eq_nil_iff.2 fun name hname => List.filter_eq_nil_iff.1 h name ?_
      obtain ⟨part', hmem, hname⟩ := List.mem_filterMap.1 hname
      exact List.mem_filterMap.2 ⟨part', List.mem_cons_of_mem _ hmem, hname⟩
    obtain ⟨first, others, hruns, hcases⟩ := ih hclosed hparts
    cases part with
    | unclosed inside => cases hfirst
    | reference inside =>
      obtain ⟨x, hx⟩ := exists_find?_of_missingReferences h List.mem_cons_self
      have hpieces : referencePieces readings (.reference inside :: parts)
          = .value x :: referencePieces readings parts := by
        rw [referencePieces, List.filterMap_cons, Segment.piece?, hx]
        rfl
      -- in front of a reference is no text, and what was the first run is one of the others
      refine ⟨[], runs parts, rfl, Or.inl ⟨rfl, by simp [hpieces], fun r hr => ?_⟩⟩
      rw [hpieces, List.mem_cons] at hr
      have hr := hr.resolve_left (by simp)
      rw [hruns]
      rcases hcases with ⟨-, -, hothers⟩ | ⟨hne, rest, hrest, hothers⟩
      · exact (hothers r hr).imp_left (List.mem_cons_of_mem _)
      · rw [hrest, List.mem_cons] at hr
        rcases hr with heq | hr
        · cases heq
          exact ⟨List.mem_cons_self, hne⟩
        · exact (hothers r hr).imp_left (List.mem_cons_of_mem _)
    | byte c =>
      refine ⟨c :: first, others, by rw [runs, hruns, List.modifyHead_cons], Or.inr
        ⟨List.cons_ne_nil _ _, ?_⟩⟩
      have hmerge : referencePieces readings (.byte c :: parts)
          = Piece.mergeText (.text [c] :: parts.filterMap (Segment.piece? readings)) := rfl
      rw [hmerge, Piece.mergeText]
      -- the byte begins a text, or goes in front of the one that is there
      rcases hcases with ⟨rfl, hnot, hothers⟩ | ⟨hne, rest, hrest, hothers⟩
      · refine ⟨referencePieces readings parts, ?_, hothers⟩
        split
        · rename_i s rest heq
          exact absurd heq (hnot s rest)
        · rfl
      · refine ⟨rest, ?_, hothers⟩
        rw [referencePieces] at hrest
        rw [hrest]
        rfl

/-- **Texts that are left** once the references are replaced are runs, and not empty. -/
theorem mem_runs_of_mem_referencePieces (hclosed : parts.any Segment.isUnclosed = false)
    (h : missingReferences readings parts = []) {r : Text}
    (hr : .text r ∈ referencePieces readings parts) : r ∈ runs parts ∧ r ≠ [] := by
  obtain ⟨first, others, hruns, ⟨-, -, hothers⟩ | ⟨hne, rest, hrest, hothers⟩⟩ :=
    runs_cases hclosed h
  · rw [hruns]
    exact (hothers r hr).imp_left (List.mem_cons_of_mem _)
  · rw [hruns]
    rw [hrest] at hr
    rcases List.mem_cons.1 hr with heq | hr
    · cases heq
      exact ⟨List.mem_cons_self, hne⟩
    · exact (hothers r hr).imp_left (List.mem_cons_of_mem _)

/-- **Two readings that have every reference** replace the same ones. -/
theorem referencePieces_alike (hclosed : parts.any Segment.isUnclosed = false)
    (h : missingReferences readings parts = []) (h' : missingReferences other parts = []) :
    List.Forall₂ (Piece.Alike fun _ _ => True) (referencePieces readings parts)
      (referencePieces other parts) := by
  refine Piece.Alike.mergeText ?_
  have hreference : ∀ inside, .reference inside ∈ parts →
      ∃ x y, readings.find? (Name.canonical inside) = some x ∧
        other.find? (Name.canonical inside) = some y := by
    intro inside hmem
    obtain ⟨x, hx⟩ := exists_find?_of_missingReferences h hmem
    obtain ⟨y, hy⟩ := exists_find?_of_missingReferences h' hmem
    exact ⟨x, y, hx, hy⟩
  clear h h'
  -- segment by segment, where a reference has a value in both
  induction parts with
  | nil => exact .nil
  | cons part parts ih =>
    obtain ⟨hfirst, hclosed⟩ := Bool.or_eq_false_iff.1 (List.any_cons ▸ hclosed)
    have hrest := ih hclosed fun inside hmem => hreference inside (List.mem_cons_of_mem _ hmem)
    rw [List.filterMap_cons, List.filterMap_cons]
    cases part with
    | byte c => exact .cons (.text [c]) hrest
    | unclosed inside => cases hfirst
    | reference inside =>
      obtain ⟨x, y, hx, hy⟩ := hreference inside List.mem_cons_self
      rw [Segment.piece?, Segment.piece?, hx, hy]
      exact .cons (.value trivial) hrest

end AssayRules
