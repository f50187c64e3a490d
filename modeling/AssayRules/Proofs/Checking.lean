import AssayRules.Proofs.Legibility
import AssayRules.Proofs.Substitution

/-!
# Which texts are arithmetic

A text is checked by giving all names it refers to the reading one. Among legible texts the
check is passed by those that derive from the grammar, and by no others
(`checkArithmetic_iff`).

That derivable texts pass is an instance of what is known of substitution. That no others
pass is shown by looking at what substitution leaves. Whatever it found, right or wrong, it
put in place of a part of the text that could stand there as a reference of its own
(`Traces`), and what it left is read as lexemes without a name among them. So the text is a
row of lexemes, with the very tokens that were arranged.
-/

namespace AssayRules

/-! ### Readings that are all one -/

namespace Readings

theorem snd_of_mem_entries_set {readings : Readings} {name : Text} {x : Float}
    (h : ∀ e ∈ readings.entries, e.2 = x) : ∀ e ∈ (readings.set name x).entries, e.2 = x := by
  -- the reading is added behind the others, or put in the place of an earlier one
  intro e he
  unfold set at he
  split at he
  · obtain ⟨e', he', rfl⟩ := List.mem_map.1 he
    split
    · rfl
    · exact h e' he'
  · rcases List.mem_append.1 he with he | he
    · exact h e he
    · rw [List.mem_singleton.1 he]

theorem snd_of_mem_entries_ones {names : List Text} : ∀ e ∈ (ones names).entries, e.2 = 1.0 := by
  refine List.foldlRecOn (motive := fun readings : Readings => ∀ e ∈ readings.entries, e.2 = 1.0)
    (names.map fun name => (name, (1.0 : Float))) _ (fun e he => by cases he) ?_
  intro readings h entry hentry
  obtain ⟨name, -, rfl⟩ := List.mem_map.1 hentry
  exact snd_of_mem_entries_set h

theorem mem_spellings_ones {names : List Text} {name : Text} :
    name ∈ (ones names).spellings ↔ name ∈ names := by
  rw [ones, mem_spellings_ofList]
  simp

theorem eq_one_of_find?_ones {names : List Text} {name : Text} {x : Float}
    (h : (ones names).find? name = some x) : x = 1.0 := by
  obtain ⟨e, he, rfl, -⟩ := exists_entry_of_find? h
  exact snd_of_mem_entries_ones e he

theorem find?_ones {names : List Text} {name : Text} (h : name ∈ names) :
    (ones names).find? name = some 1.0 := by
  -- it is enough that something is found, as there is no reading but one
  have hsome : ((ones names).find? name).isSome = true := by
    cases hrecorded : (ones names).recorded? name with
    | some x =>
      rw [find?, hrecorded]
      rfl
    | none =>
      obtain ⟨e, he, hname⟩ := List.mem_map.1 (mem_spellings_ones.2 h)
      have hne := List.lookup_eq_none_iff.1 hrecorded e he
      simp [hname] at hne
  obtain ⟨x, hx⟩ := Option.isSome_iff_exists.1 hsome
  rw [hx, eq_one_of_find?_ones hx]

end Readings

theorem Text.length_foldCase_of_ascii {s : Text} (h : ∀ c ∈ s, c < 0x80) :
    s.foldCase.length = s.length := by
  -- no pair of bytes is folded, as each begins outside ASCII
  fun_induction foldCase s with
  | case1 => rfl
  | case2 c => rfl
  | case3 c d rest hpair _ =>
    have hc := h c List.mem_cons_self
    grind [isTwoByteLead]
  | case4 c d rest _ ih =>
    have hrest := ih fun b hb => h b (List.mem_cons_of_mem _ hb)
    rw [List.length_cons, hrest]
    rfl

/-- Bare names of ASCII can be put in by searching for them, if they all stand for one. -/
theorem Readings.replaceable_ones {names : List Text} (hbare : ∀ name ∈ names, Name.IsBare name)
    (hascii : ∀ name ∈ names, ∀ c ∈ name, c < 0x80) : (ones names).Replaceable where
  -- a row name is recorded under a spelling that is bare, and all its readings are one
  recordable name hname := by
    have hmem := mem_spellings_ones.1 hname
    exact ⟨Text.isUtf8_of_ascii (hascii name hmem), Or.inr (hbare name hmem)⟩
  consistent e he f hf _ _ _ := by
    rw [snd_of_mem_entries_ones e he, snd_of_mem_entries_ones f hf]
  shorter a ha b hb hwithin hne := by
    -- in ASCII letter case does not change lengths
    have hlength : a.foldCase.length ≠ b.foldCase.length :=
      fun heq => hne (hwithin.eq_of_length heq)
    have hle := hwithin.length_le
    rw [Text.length_foldCase_of_ascii (hascii a (mem_spellings_ones.1 ha)),
      Text.length_foldCase_of_ascii (hascii b (mem_spellings_ones.1 hb))] at hlength hle
    omega

/-! ### The references of lexemes -/

namespace Lexeme

/-- The name of a reference in brackets. -/
def bracketedName? : Lexeme → Option Text
  | bracketed inside _ => some (Name.canonical inside)
  | _ => none

/-- **The names that lexemes refer to**, each once: first those in brackets, then the bare
ones, each kind in order of appearance. -/
def references (ls : List Lexeme) : List Text :=
  (ls.filterMap bracketedName? ++ ls.filterMap bareName?).eraseDups

theorem mem_references {ls : List Lexeme} {name : Text} :
    name ∈ references ls ↔ ∃ l ∈ ls, l.name? = some name := by
  rw [references, List.mem_eraseDups, List.mem_append, List.mem_filterMap, List.mem_filterMap]
  constructor
  · rintro (⟨l, hl, hname⟩ | ⟨l, hl, hname⟩) <;> refine ⟨l, hl, ?_⟩ <;>
      cases l <;> first | exact hname | cases hname
  · rintro ⟨l, hl, hname⟩
    cases l with
    | bare y hy => exact Or.inr ⟨_, hl, hname⟩
    | bracketed inside hi => exact Or.inl ⟨_, hl, hname⟩
    | _ => cases hname

/-- **The names that a text is found to refer to** are those of its lexemes. -/
theorem references_texts {behind : Bool} {ls : List Lexeme} (h : Spaced behind ls)
    (hne : ∀ inside hi, .bracketed inside hi ∈ ls → Name.canonical inside ≠ []) :
    AssayRules.references (texts ls) = .ok (references ls) := by
  -- the parts of the lexemes are brought to the two lists of names, the one in brackets and the
  -- bare one
  have hbytes : ∀ s : Text, (s.map Segment.byte).filterMap Segment.name? = [] := by
    intro s
    rw [List.filterMap_map, List.filterMap_eq_nil_iff]
    exact fun c _ => rfl
  have hbracketed : (ls.flatMap segments).filterMap Segment.name?
      = ls.filterMap bracketedName? := by
    rw [List.filterMap_flatMap, List.filterMap_eq_flatMap_toList]
    refine List.flatMap_congr fun l _ => ?_
    cases l with
    | bracketed => rfl
    | _ => exact hbytes _
  have houtside : (ls.flatMap segments).map Segment.outside = ls.flatMap outside := by
    rw [List.map_flatMap]
    refine List.flatMap_congr fun l _ => ?_
    cases l with
    | bracketed => rfl
    | _ => exact (List.map_map ..).trans (List.map_id _)
  -- a bare name is canonical already, so that nothing is taken off it
  have hbare : (ls.filterMap bareName?).map Name.canonical = ls.filterMap bareName? := by
    rw [List.map_congr_left (g := id), List.map_id]
    intro name hname
    obtain ⟨l, -, hl⟩ := List.mem_filterMap.1 hname
    cases l with
    | bare y hy =>
      cases hl
      exact hy.canonical_eq
    | _ => cases hl
  -- no reference is to the empty name
  have hfilter : (ls.filterMap bracketedName? ++ ls.filterMap bareName?).filter (· != [])
      = ls.filterMap bracketedName? ++ ls.filterMap bareName? := by
    rw [List.filter_eq_self]
    intro name hname
    obtain ⟨l, hl, hname⟩ := mem_references.1 (List.mem_eraseDups.2 hname)
    refine bne_iff_ne.2 ?_
    cases l with
    | bare y hy =>
      cases hname
      exact hy.ne_nil
    | bracketed inside hi =>
      cases hname
      exact hne inside hi hl
    | _ => cases hname
  rw [AssayRules.references]
  dsimp only
  rw [isUnclosed_segments_texts, segments_texts, hbracketed, houtside, bareNames_outside h, hbare,
    hfilter]
  rfl

end Lexeme

/-! ### What substitution leaves -/

theorem pieceTokens_cons_eq_ok {piece : Piece} {pieces : List Piece} {ts : List Token} :
    pieceTokens (piece :: pieces) = .ok ts ↔
      ∃ front others, piece.tokens = .ok front ∧ pieceTokens pieces = .ok others ∧
        ts = front ++ others := by
  rw [pieceTokens]
  -- the pieces in front have to be without fault, and so have the others
  constructor
  · intro h
    obtain ⟨front, hfront, h⟩ := bind_eq_ok_iff.1 h
    obtain ⟨others, hothers, h⟩ := bind_eq_ok_iff.1 h
    exact ⟨front, others, hfront, hothers, (Except.ok.inj h).symm⟩
  · rintro ⟨front, others, hfront, hothers, rfl⟩
    exact bind_eq_ok_iff.2 ⟨front, hfront, bind_eq_ok_iff.2 ⟨others, hothers, rfl⟩⟩

theorem Reading.eq_of_toExcept_eq_ok {reading : Reading} {ts : List Token}
    (h : reading.toExcept = .ok ts) : reading = ⟨ts, none⟩ := by
  obtain ⟨tokens, fault?⟩ := reading
  cases fault? with
  | none =>
    obtain rfl : tokens = ts := Except.ok.inj h
    rfl
  | some cause => cases h

/-- **Pieces trace a text** if each piece of text is a part of it as it stands, and each
reading stands in place of something that is a reference by itself. All readings are one
here. -/
inductive Traces : List Piece → Text → Prop
  | nil : Traces [] []
  | text {pieces : List Piece} {rest : Text} (s : Text) (h : Traces pieces rest) :
      Traces (.text s :: pieces) (s ++ rest)
  | value {pieces : List Piece} {rest : Text} (l : Lexeme) (hl : l.name?.isSome = true)
      (h : Traces pieces rest) : Traces (.value 1.0 :: pieces) (l.text ++ rest)

namespace Traces

variable {pieces pieces' : List Piece} {s t name : Text}

theorem append (h : Traces pieces s) (h' : Traces pieces' t) :
    Traces (pieces ++ pieces') (s ++ t) := by
  induction h with
  | nil => exact h'
  | text r _ ih =>
    rw [List.append_assoc]
    exact .text r ih
  | value l hl _ ih =>
    rw [List.append_assoc]
    exact .value l hl ih

theorem mergeText (h : Traces pieces s) : Traces (Piece.mergeText pieces) s := by
  -- merging puts texts together, of which the text that is traced takes no notice
  induction h with
  | nil => exact .nil
  | @text pieces rest r _ ih =>
    rw [Piece.mergeText]
    split
    · rename_i u others heq
      rw [heq] at ih
      cases ih with
      | text _ h =>
        rw [← List.append_assoc]
        exact .text (r ++ u) h
    · exact .text r ih
  | value l hl _ ih => exact .value l hl ih

/-- **At the start** every bracket has been replaced. -/
theorem referencePieces {readings : Readings} {parts : List Segment}
    (hclosed : parts.any Segment.isUnclosed = false)
    (hinside : ∀ inside, .reference inside ∈ parts → Ascii.rightBracket ∉ inside ∧
      readings.find? (Name.canonical inside) = some 1.0) :
    Traces (AssayRules.referencePieces readings parts) (parts.flatMap Segment.text) := by
  refine Traces.mergeText ?_
  -- segment by segment, each with the lexeme or the bytes that it came from
  induction parts with
  | nil => exact .nil
  | cons part parts ih =>
    rw [List.any_cons, Bool.or_eq_false_iff] at hclosed
    have hrest := ih hclosed.2 fun inside hmem => hinside inside (List.mem_cons_of_mem _ hmem)
    cases part with
    | byte c => exact .text [c] hrest
    | reference inside =>
      obtain ⟨hbracket, hfound⟩ := hinside inside List.mem_cons_self
      have hpiece : Segment.piece? readings (.reference inside) = some (.value 1.0) := by
        rw [Segment.piece?, hfound]
        rfl
      rw [List.filterMap_cons_some hpiece]
      exact .value (.bracketed inside hbracket) rfl hrest
    | unclosed inside => cases hclosed.1

/-- What is found of a name is a reference by itself, unless it is a reserved word. -/
theorem spans {mode : Matching} (hname : name.IsUtf8) (hbare : Name.IsBare name)
    (hreserved : ∀ word ∈ Name.reservedWords, name.foldCase ≠ word.foldCase)
    {spans : List Span} (hspans : ∀ u, .hit u ∈ spans → mode.key u = mode.key name ∧
      mode.Divides u) :
    Traces (spans.map (Span.piece 1.0)) (spans.flatMap Span.text) := by
  -- span by span, where a hit becomes the bare name that it stands for
  induction spans with
  | nil => exact .nil
  | cons span spans ih =>
    have hrest := ih fun u hu => hspans u (List.mem_cons_of_mem _ hu)
    cases span with
    | plain r => exact .text r hrest
    | hit u =>
      -- it is the name in another letter case, which is bare like the name itself
      obtain ⟨hkey, hdivides⟩ := hspans u List.mem_cons_self
      obtain ⟨hu, hfold⟩ := Matching.foldCase_of_key_eq hname hdivides hkey
      obtain ⟨hhead, hall, hlast⟩ := Text.bytes_of_foldCase_eq hu hname hfold hbare
      have hubare : Name.IsBare u := by
        refine Name.isBare_iff.2 ⟨hhead, hall, ?_, ?_⟩
        · cases hu' : u.getLast? with
          | none => rfl
          | some c =>
            rw [hu'] at hlast
            exact Name.isSpace_of_isWord hlast
        · rw [Name.isReserved, ← Bool.not_eq_true, List.contains_iff_mem]
          exact fun hmem => hreserved u hmem hfold.symm
      exact .value (.bare u hubare) rfl hrest

theorem replaceName (h : Traces pieces s) (hs : ∀ c ∈ s, c < 0x80) (mode : Matching)
    (hname : name.IsUtf8) (hbare : Name.IsBare name)
    (hreserved : ∀ word ∈ Name.reservedWords, name.foldCase ≠ word.foldCase) :
    Traces (AssayRules.replaceName mode name 1.0 pieces).pieces s := by
  -- only texts are searched, and a value keeps the lexeme it has
  induction h with
  | nil => exact .nil
  | @text pieces rest r _ ih =>
    have hr : mode.Divides r := .of_isUtf8 (Text.isUtf8_of_ascii fun c hc =>
      hs c (List.mem_append_left _ hc)) mode
    have hrest := ih fun c hc => hs c (List.mem_append_right _ hc)
    have htext : (mode.spans name r).flatMap Span.text = r := by
      rw [Matching.spans, Target.flatMap_text_spans, Matching.flatMap_text_glyphs]
    have hfront : Traces ((mode.spans name r).map (Span.piece 1.0))
        ((mode.spans name r).flatMap Span.text) :=
      spans hname hbare hreserved fun u hu => hr.key_of_hit_mem_spansFrom hu
    rw [htext] at hfront
    exact hfront.mergeText.append hrest
  | value l hl _ ih => exact .value l hl (ih fun c hc => hs c (List.mem_append_right _ hc))

/-- **All turns** leave pieces that trace the text. -/
theorem foldl_replaceEntry {entries : List (Text × Float)} (h : Traces pieces s)
    (hs : ∀ c ∈ s, c < 0x80)
    (hentries : ∀ e ∈ entries, e.2 = 1.0 ∧ e.1.IsUtf8 ∧ Name.IsBare e.1 ∧
      ∀ word ∈ Name.reservedWords, e.1.foldCase ≠ word.foldCase) :
    Traces (entries.foldl replaceEntry pieces) s := by
  -- name by name, so that what one pass leaves is what the next one starts from
  induction entries generalizing pieces with
  | nil => exact h
  | cons entry entries ih =>
    obtain ⟨hx, hutf8, hbare, hreserved⟩ := hentries entry List.mem_cons_self
    refine ih ?_ fun e he => hentries e (List.mem_cons_of_mem _ he)
    have hexact := h.replaceName hs .exact hutf8 hbare hreserved
    have hfolded := hexact.replaceName hs .folded hutf8 hbare hreserved
    rw [replaceEntry, hx]
    split
    · exact h
    · exact hfolded

/-- **At the end** the text is a row of lexemes, with the tokens that were read. -/
theorem exists_lexemes (h : Traces pieces s) (hnames : pieces.flatMap Piece.bareNames = [])
    {ts : List Token} (hts : pieceTokens pieces = .ok ts) :
    ∃ ls, Lexeme.texts ls = s ∧ Lexeme.tokens (fun _ => 1.0) ls = ts := by
  -- from behind, as the tokens are taken apart piece by piece
  induction h generalizing ts with
  | nil =>
    cases hts
    exact ⟨[], rfl, rfl⟩
  -- a text without names in it is made of signs, blanks and figures
  | @text pieces rest r _ ih =>
    obtain ⟨hr, hrest⟩ := List.append_eq_nil_iff.1 hnames
    obtain ⟨front, others, hfront, hothers, rfl⟩ := pieceTokens_cons_eq_ok.1 hts
    obtain ⟨ls, rfl, -, hls⟩ := exists_lexemes_of_lex (Reading.eq_of_toExcept_eq_ok hfront) hr
    obtain ⟨ms, rfl, hms⟩ := ih hrest hothers
    exact ⟨ls ++ ms, Lexeme.texts_append ls ms, by rw [Lexeme.tokens_append, hls, hms]⟩
  | @value pieces rest l hl _ ih =>
    -- the reading one is what any reference stands for
    obtain ⟨front, others, hfront, hothers, rfl⟩ := pieceTokens_cons_eq_ok.1 hts
    cases hfront
    obtain ⟨ms, rfl, hms⟩ := ih hnames hothers
    have htoken : l.token? (fun _ => 1.0) = some (.number 1.0) := by
      cases l with
      | bare => rfl
      | bracketed => rfl
      | _ => cases hl
    refine ⟨l :: ms, rfl, ?_⟩
    rw [Lexeme.tokens, List.filterMap_cons_some htoken]
    exact congrArg (_ :: ·) hms

end Traces

/-! ### The check -/

theorem substitute_ne_notFinite (s t : Text) (readings : Readings) :
    substitute s readings ≠ .error (.notFinite t) := by
  intro h
  rw [substitute] at h
  dsimp only at h
  split_ifs at h
  · cases h
  · split at h <;> cases h
  · cases h

theorem checkArithmetic_eq_ok_iff {s : Text} {names : List Text} :
    checkArithmetic s names = .ok () ↔ ∃ tokens program,
      substitute s (.ones names) = .ok tokens ∧
        Program.ofTokens .standard tokens = .ok program := by
  rw [checkArithmetic]
  cases hsubstitute : substitute s (.ones names) with
  | ok tokens =>
    dsimp only
    rw [map_eq_ok_iff]
    constructor
    · rintro ⟨program, hprogram, -⟩
      exact ⟨tokens, program, rfl, hprogram⟩
    · rintro ⟨_, program, htokens, hprogram⟩
      cases htokens
      exact ⟨program, hprogram, rfl⟩
  | error failure =>
    constructor
    · intro h
      -- over readings of one nothing can fail to be finite
      cases failure with
      | notFinite t => exact absurd hsubstitute (substitute_ne_notFinite s t _)
      | _ => cases h
    · rintro ⟨_, _, h, _⟩
      cases h

/-- The references of a legible expression are those of its lexemes. -/
theorem Lexeme.references_of_isLegible {ls : List Lexeme} (hls : IsArithmetic ls)
    (h : (texts ls).IsLegible) : AssayRules.references (texts ls) = .ok (references ls) := by
  refine references_texts hls.spaced fun inside hi hmem => (h.bracketed inside ?_).ne_nil
  rw [segments_texts]
  exact List.mem_flatMap.2 ⟨_, hmem, List.mem_singleton_self _⟩

/-- **The check is passed by the expressions** among legible texts, given the names that the
text refers to. -/
theorem checkArithmetic_iff {s : Text} (h : s.IsLegible) {names : List Text}
    (hnames : references s = .ok names) :
    checkArithmetic s names = .ok () ↔ ∃ ls, Lexeme.texts ls = s ∧ Lexeme.IsArithmetic ls := by
  have hbare : ∀ name ∈ names, Name.IsBare name :=
    fun name hname => h.isBare ((mem_references_iff_refers hnames).1 hname)
  have hascii : ∀ name ∈ names, ∀ c ∈ name, c < 0x80 :=
    fun name hname => h.ascii_name ((mem_references_iff_refers hnames).1 hname)
  constructor
  · intro hcheck
    obtain ⟨_, program, hsubstitute, hprogram⟩ := checkArithmetic_eq_ok_iff.1 hcheck
    obtain ⟨hclosed, hmissing, hleft, ts, hts, rfl⟩ := substitute_eq_ok_iff.1 hsubstitute
    -- a reference without a reading would have been missed
    have hfound : ∀ inside, .reference inside ∈ segments s →
        (Readings.ones names).find? (Name.canonical inside) = some 1.0 := by
      intro inside hmem
      have hnot := List.filter_eq_nil_iff.1 hmissing _ (List.mem_filterMap.2 ⟨_, hmem, rfl⟩)
      rw [Bool.not_eq_true, Bool.not_eq_false'] at hnot
      obtain ⟨x, hx⟩ := Option.isSome_iff_exists.1 hnot
      rw [hx, Readings.eq_one_of_find?_ones hx]
    have hstart : Traces (referencePieces (.ones names) (segments s)) s := by
      have htraces := Traces.referencePieces hclosed fun inside hmem =>
        ⟨rightBracket_notMem_of_mem_segments hmem, hfound inside hmem⟩
      rwa [flatMap_text_segments] at htraces
    -- the trace goes through the references first and through every name after them
    have hend : Traces (replaceEntries (.ones names) (referencePieces (.ones names) (segments s)))
        s := by
      refine hstart.foldl_replaceEntry h.ascii fun e he => ?_
      have he' := (Readings.perm_entriesLongestFirst _).mem_iff.1 he
      have hname : e.1 ∈ names := Readings.mem_spellings_ones.1 (List.mem_map_of_mem he')
      exact ⟨Readings.snd_of_mem_entries_ones e he', Text.isUtf8_of_ascii (hascii _ hname),
        hbare _ hname, h.unreserved names hnames _ hname⟩
    -- what was arranged are the tokens of lexemes, and the grammar derives what is arranged
    obtain ⟨ls, hls, rfl⟩ := hend.exists_lexemes hleft hts
    have htokens := Lexeme.takeWhile_tokens_append_stop (fun _ => 1.0) ls
    have hexpression := Program.isExpression_of_ofTokens_eq_ok
      (by rw [htokens]; exact fun token hmem => (Lexeme.of_mem_tokens hmem).2) hprogram
    rw [htokens] at hexpression
    exact ⟨ls, hls, (Lexeme.isArithmetic_iff _).2 hexpression⟩
  · rintro ⟨ls, rfl, hls⟩
    -- the names referred to are those of the lexemes, and all of them have the reading one
    obtain rfl := Except.ok.inj (hnames.symm.trans (Lexeme.references_of_isLegible hls h))
    have hvalue : ∀ l ∈ ls, ∀ name, l.name? = some name →
        (Readings.ones (Lexeme.references ls)).find? name = some 1.0 :=
      fun l hl name hname => Readings.find?_ones (Lexeme.mem_references.2 ⟨l, hl, hname⟩)
    have hsubstitute := substitute_texts (Readings.replaceable_ones hbare hascii) hls.spaced
      (Text.isUtf8_of_ascii h.ascii) hvalue
    obtain ⟨tree, htree⟩ := Precedence.exists_parses .standard (hls fun _ => 1.0)
    rw [← Lexeme.takeWhile_tokens_append_stop] at htree
    exact checkArithmetic_eq_ok_iff.2 ⟨_, _, hsubstitute, Program.ofTokens_of_parses htree⟩

end AssayRules
