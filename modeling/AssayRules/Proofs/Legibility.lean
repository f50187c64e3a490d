import AssayRules.Comparison
import AssayRules.Proofs.Lexing
import AssayRules.Text.Fold

/-!
# Texts whose references cannot be mistaken

A search for names looks at the text outside brackets only, and so it may find there the name
of a reference that was meant to be something else: a reserved word in another letter case,
or what a bracket holds and no bare name could be. A text is legible if it has nothing of the
kind.

A legible text stays so when it is taken apart as a formula is: a comparison ends every run
of name bytes and opens no bracket, so what the two sides refer to is what the whole refers
to (`Text.IsLegible.sides`), and the blanks at the ends of a side refer to nothing
(`Text.IsLegible.trim`).
-/

namespace AssayRules

/-! ### Brackets that close -/

theorem Text.notMem_of_splitAt?_eq_some {stop : UInt8} {s before after : Text}
    (h : splitAt? stop s = some (before, after)) : stop ∉ before := by
  -- byte by byte, up to the first that stops
  induction s generalizing before with
  | nil => cases h
  | cons c rest ih =>
    rw [splitAt?] at h
    split_ifs at h with hc
    · cases h
      simp
    · obtain ⟨⟨before', after'⟩, hsplit, heq⟩ := Option.map_eq_some_iff.1 h
      cases heq
      rw [List.mem_cons, not_or]
      exact ⟨fun heq => hc (beq_iff_eq.2 heq.symm), ih hsplit⟩

theorem rightBracket_notMem_of_mem_segments {s inside : Text}
    (h : .reference inside ∈ segments s) : Ascii.rightBracket ∉ inside := by
  -- segment by segment, where a reference ends at its first closing bracket
  fun_induction segments s with
  | case1 => cases h
  | case2 c rest hc hnone => simp at h
  | case3 c rest hc inside' after hsome ih =>
    rcases List.mem_cons.1 h with heq | h
    · cases heq
      exact Text.notMem_of_splitAt?_eq_some hsome
    · exact ih h
  | case4 c rest hc ih =>
    rcases List.mem_cons.1 h with heq | h
    · cases heq
    · exact ih h

/-- **Behind a text whose brackets close** the cutting starts anew. -/
theorem segments_append_of_closed {s : Text} (h : (segments s).any Segment.isUnclosed = false)
    (t : Text) : segments (s ++ t) = segments s ++ segments t := by
  -- along the segments of the first text, none of which is left open
  fun_induction segments s with
  | case1 => rfl
  | case2 c rest hc hnone => cases h
  | case3 c rest hc inside after hsome ih =>
    have hinside := Text.notMem_of_splitAt?_eq_some hsome
    -- the text behind the bracket is as it was, with `t` at its end
    have htext : c :: rest ++ t = (Segment.reference inside).text ++ (after ++ t) := by
      rw [eq_of_beq hc, Text.eq_of_splitAt?_eq_some hsome, Segment.text]
      simp
    rw [htext, segments_reference_append hinside, ih h]
    rfl
  | case4 c rest hc ih =>
    rw [List.cons_append, segments, if_neg hc, ih h]
    rfl

theorem isUnclosed_map_byte (s : Text) :
    (s.map Segment.byte).any Segment.isUnclosed = false := by
  rw [List.any_map, List.any_eq_false]
  exact fun c _ => Bool.false_ne_true

theorem outside_map_byte (s : Text) : (s.map Segment.byte).map Segment.outside = s :=
  (List.map_map ..).trans (List.map_id s)

theorem reference_mem_append_map_byte {parts : List Segment} {s inside : Text} :
    .reference inside ∈ s.map Segment.byte ++ parts ↔ .reference inside ∈ parts := by
  simp

/-! ### What a text refers to -/

/-- **Whether a text refers to a name**: in brackets, or bare in what is left of it. -/
def Refers (s name : Text) : Prop :=
  name ≠ [] ∧ ((∃ inside, .reference inside ∈ segments s ∧ Name.canonical inside = name) ∨
    name ∈ Name.bareNames ((segments s).map Segment.outside))

variable {s t name : Text} {names : List Text}

theorem closed_of_references_eq_ok (h : references s = .ok names) :
    (segments s).any Segment.isUnclosed = false := by
  rw [references] at h
  dsimp only at h
  split_ifs at h with hunclosed
  exact Bool.not_eq_true _ ▸ hunclosed

/-- **References are what the text refers to.** -/
theorem exists_references (h : (segments s).any Segment.isUnclosed = false) :
    ∃ names, references s = .ok names ∧ ∀ name, name ∈ names ↔ Refers s name := by
  refine ⟨_, by rw [references]; dsimp only; rw [h]; rfl, fun name => ?_⟩
  -- an empty name is the only one that is sorted out
  rw [Name.map_canonical_bareNames, List.mem_eraseDups, List.mem_filter, bne_iff_ne, and_comm,
    Refers, List.mem_append, List.mem_filterMap]
  refine and_congr_right fun _ => or_congr_left ?_
  -- a name in brackets is told by what is inside, and a bare name by the text outside
  constructor
  · rintro ⟨part, hpart, hname⟩
    cases part with
    | reference inside => exact ⟨inside, hpart, Option.some.inj hname⟩
    | _ => cases hname
  · rintro ⟨inside, hpart, rfl⟩
    exact ⟨_, hpart, rfl⟩

theorem mem_references_iff_refers (h : references s = .ok names) :
    name ∈ names ↔ Refers s name := by
  obtain ⟨names', hnames, hmem⟩ := exists_references (closed_of_references_eq_ok h)
  obtain rfl := Except.ok.inj (hnames.symm.trans h)
  exact hmem name

/-! ### Legible texts -/

/-- **A text is legible** if it is ASCII, each bracket holds what could stand there bare, and
no reference is a reserved word in another letter case. -/
structure Text.IsLegible (s : Text) : Prop where
  ascii : ∀ c ∈ s, c < 0x80
  bracketed : ∀ inside, .reference inside ∈ segments s → Name.IsBare (Name.canonical inside)
  unreserved : ∀ names, references s = .ok names →
    ∀ name ∈ names, ∀ word ∈ Name.reservedWords, name.foldCase ≠ word.foldCase

namespace Text.IsLegible

/-- The references of a legible text are bare names. -/
theorem isBare (h : s.IsLegible) (hname : Refers s name) : Name.IsBare name := by
  rcases hname.2 with ⟨inside, hmem, rfl⟩ | hmem
  · exact h.bracketed inside hmem
  · exact Name.isBare_of_mem_bareNames hmem

/-- The references of a legible text are ASCII. -/
theorem ascii_name (h : s.IsLegible) (hname : Refers s name) : ∀ c ∈ name, c < 0x80 := by
  -- each byte of a name is a byte of the text it is found in
  have hpart : ∀ part ∈ segments s, ∀ c ∈ part.text, c < 0x80 := by
    intro part hpart c hc
    refine h.ascii c ?_
    rw [← flatMap_text_segments s]
    exact List.mem_flatMap.2 ⟨part, hpart, hc⟩
  intro c hc
  rcases hname.2 with ⟨inside, hmem, rfl⟩ | hmem
  · have hinside := List.mem_cons_of_mem Ascii.leftBracket (Name.mem_of_mem_canonical hc)
    exact hpart _ hmem c (List.mem_append_left _ hinside)
  · -- where a reference was cut out there is a blank, which is ASCII, too
    obtain ⟨part, hmem, rfl⟩ := List.mem_map.1 (Name.mem_of_mem_bareNames hmem hc)
    cases part with
    | byte c => exact hpart _ hmem c (List.mem_singleton_self c)
    | _ => exact (by decide : Ascii.space < 0x80)

/-- A part is legible if it refers to nothing else than the whole. -/
theorem of_refers (h : s.IsLegible) (hclosed : (segments s).any Segment.isUnclosed = false)
    (hascii : ∀ c ∈ t, c ∈ s)
    (hbracketed : ∀ inside, .reference inside ∈ segments t → .reference inside ∈ segments s)
    (hbare : ∀ name ∈ Name.bareNames ((segments t).map Segment.outside),
      name ∈ Name.bareNames ((segments s).map Segment.outside)) : t.IsLegible where
  ascii c hc := h.ascii c (hascii c hc)
  bracketed inside hmem := h.bracketed inside (hbracketed inside hmem)
  unreserved names hnames name hname := by
    -- the whole has references, as its brackets close, and this is one of them
    obtain ⟨names', hnames', hmem⟩ := exists_references hclosed
    obtain ⟨hne, hrefers⟩ := (mem_references_iff_refers hnames).1 hname
    refine h.unreserved names' hnames' name ((hmem name).2 ⟨hne, ?_⟩)
    rcases hrefers with ⟨inside, hinside, heq⟩ | hrefers
    · exact Or.inl ⟨inside, hbracketed inside hinside, heq⟩
    · exact Or.inr (hbare name hrefers)

end Text.IsLegible

/-! ### Taking a formula apart -/

/-- Blanks at the ends are segments of their own. -/
theorem exists_segments_trim (h : (segments s.trim).any Segment.isUnclosed = false) :
    ∃ before behind : Text, (∀ c ∈ before, Ascii.isSpace c = true) ∧
      (∀ c ∈ behind, Ascii.isSpace c = true) ∧
      segments s = before.map .byte ++ (segments s.trim ++ behind.map .byte) := by
  obtain ⟨before, behind, hs, hbefore, hbehind⟩ := Text.exists_trim s
  have hbracket : ∀ {b : Text}, (∀ c ∈ b, Ascii.isSpace c = true) → Ascii.leftBracket ∉ b :=
    fun hb hmem => by cases hb _ hmem
  -- blanks open no reference, so that they are segments byte by byte
  refine ⟨before, behind, hbefore, hbehind, ?_⟩
  have hlast := segments_append_of_notMem (hbracket hbehind) []
  rw [segments_nil, List.append_nil, List.append_nil] at hlast
  conv_lhs => rw [hs]
  rw [List.append_assoc, segments_append_of_notMem (hbracket hbefore),
    segments_append_of_closed h, hlast]

/-- Trimming closes no bracket. -/
theorem closed_of_closed_trim (h : (segments s.trim).any Segment.isUnclosed = false) :
    (segments s).any Segment.isUnclosed = false := by
  obtain ⟨before, behind, -, -, hs⟩ := exists_segments_trim h
  rw [hs, List.any_append, List.any_append, isUnclosed_map_byte, isUnclosed_map_byte, h]
  rfl

theorem Text.IsLegible.trim (h : s.IsLegible)
    (hclosed : (segments s.trim).any Segment.isUnclosed = false) : s.trim.IsLegible := by
  obtain ⟨before, behind, hbefore, hbehind, hs⟩ := exists_segments_trim hclosed
  refine h.of_refers (closed_of_closed_trim hclosed) (fun c hc => mem_of_mem_trim hc) ?_ ?_
  · -- the references are the same, and so are the names outside of them, as blanks belong to none
    intro inside hmem
    rw [hs, reference_mem_append_map_byte]
    exact List.mem_append_left _ hmem
  · have hword : ∀ c ∈ before, Ascii.isWord c = false :=
      fun c hc => Name.isWord_of_isSpace (hbefore c hc)
    rw [hs, List.map_append, List.map_append, outside_map_byte, outside_map_byte,
      Name.bareNames_append_of_not_isWord hword, Name.bareNames_append_of_isSpace hbehind]
    exact fun name hname => hname

/-- **Two sides with a comparison between them.** -/
theorem segments_append_comparison (h : (segments s).any Segment.isUnclosed = false)
    (comparison : Comparison) (t : Text) : segments (s ++ comparison.text ++ t)
      = segments s ++ (comparison.text.map .byte ++ segments t) := by
  have hbracket : Ascii.leftBracket ∉ comparison.text := by
    cases comparison <;> decide
  rw [List.append_assoc, segments_append_of_closed h, segments_append_of_notMem hbracket]

theorem Text.IsLegible.sides {comparison : Comparison}
    (h : (s ++ comparison.text ++ t).IsLegible)
    (hs : (segments s).any Segment.isUnclosed = false)
    (ht : (segments t).any Segment.isUnclosed = false) : s.IsLegible ∧ t.IsLegible := by
  -- the references of the whole are those of the two sides
  have hsegments := segments_append_comparison hs comparison t
  have hclosed : (segments (s ++ comparison.text ++ t)).any Segment.isUnclosed = false := by
    rw [hsegments, List.any_append, List.any_append, isUnclosed_map_byte, hs, ht]
    rfl
  have hreference : ∀ inside, .reference inside ∈ segments (s ++ comparison.text ++ t) ↔
      .reference inside ∈ segments s ∨ .reference inside ∈ segments t := by
    intro inside
    rw [hsegments, List.mem_append, reference_mem_append_map_byte]
  -- the first byte of the comparison ends a run, and what is left of it is skipped
  have hbare : Name.bareNames ((segments (s ++ comparison.text ++ t)).map Segment.outside)
      = Name.bareNames ((segments s).map Segment.outside)
        ++ Name.bareNames ((segments t).map Segment.outside) := by
    have hends : ∀ c ∈ comparison.text, Name.continuesName c = false := by
      cases comparison <;> simp [Comparison.text, Name.continuesName] <;> decide
    obtain ⟨c, rest, htext⟩ : ∃ c rest, comparison.text = c :: rest := by
      cases comparison <;> exact ⟨_, _, rfl⟩
    have hword : ∀ d ∈ rest, Ascii.isWord d = false := fun d hd =>
      Name.isWord_of_not_continuesName (hends d (htext ▸ List.mem_cons_of_mem _ hd))
    rw [hsegments, List.map_append, List.map_append, outside_map_byte, htext, List.cons_append,
      Name.bareNames_append_cons (hends c (htext ▸ List.mem_cons_self)),
      Name.bareNames_append_of_not_isWord hword]
  -- so each side refers to less than the whole, and has no other bytes
  refine ⟨h.of_refers hclosed ?_ (fun inside hmem => (hreference inside).2 (Or.inl hmem)) ?_,
    h.of_refers hclosed ?_ (fun inside hmem => (hreference inside).2 (Or.inr hmem)) ?_⟩
  · exact fun c hc => List.mem_append_left _ (List.mem_append_left _ hc)
  · exact fun name hname => hbare ▸ List.mem_append_left _ hname
  · exact fun c hc => List.mem_append_right _ hc
  · exact fun name hname => hbare ▸ List.mem_append_right _ hname

end AssayRules
