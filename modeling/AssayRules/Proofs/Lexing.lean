import AssayRules.Proofs.Figure

/-!
# Reading lexemes back

Three passes go over the text of an expression, and each finds its lexemes again: `segments`
finds the brackets, `Name.bareNames` the bare names once brackets are blotted out, and `lex`
the tokens once no reference is left. All three go from left to right, so the statements are
about one lexeme with the rest of the text behind it, and then by induction about all.

What they have in common is what stands behind an operand. If lexemes are apart, that is a
blank, a symbol or nothing (`Lexeme.Spaced.head_behind`), and a run of name bytes that goes
on there is made of blanks (`Lexeme.Spaced.run_behind`).

In the other direction, what `lex` reads without a fault, and without leaving a name that
`Name.bareNames` would find, is a row of lexemes (`exists_lexemes_of_lex`).
-/

namespace AssayRules

/-! ### Behind an operand -/

/-- A byte that ends every word, number and name: a blank or a symbol. -/
def endsWord (c : UInt8) : Bool := Ascii.isSpace c || (Token.ofByte? c).isSome

theorem endsWord_of_isSpace {c : UInt8} (h : Ascii.isSpace c = true) : endsWord c = true := by
  rw [endsWord, h, Bool.true_or]

theorem endsWord_of_ofByte? {c : UInt8} {token : Token} (h : Token.ofByte? c = some token) :
    endsWord c = true := by
  rw [endsWord, h, Option.isSome_some, Bool.or_true]

theorem endsWord_cases {c : UInt8} (h : endsWord c = true) :
    Ascii.isSpace c = true ∨ c = Ascii.plus ∨ c = Ascii.minus ∨ c = Ascii.star ∨
      c = Ascii.slash ∨ c = Ascii.leftParen ∨ c = Ascii.rightParen := by
  rw [endsWord, Bool.or_eq_true] at h
  refine h.imp_right fun h => ?_
  unfold Token.ofByte? at h
  split_ifs at h <;> simp_all

theorem isWord_of_endsWord {c : UInt8} (h : endsWord c = true) : Ascii.isWord c = false := by
  rcases endsWord_cases h with h | rfl | rfl | rfl | rfl | rfl | rfl
  · exact Name.isWord_of_isSpace h
  all_goals rfl

theorem ne_dot_of_endsWord {c : UInt8} (h : endsWord c = true) : c ≠ Ascii.dot := by
  rintro rfl
  cases h

namespace Lexeme

variable {f : Lexeme → Text} {behind : Bool} {ls : List Lexeme}

/-- Behind an operand stands a blank, a symbol or nothing. -/
theorem Spaced.head_behind (hf : ∀ l, l.isOperand = false → f l = l.text)
    (h : Spaced true ls) : ∀ c ∈ (ls.flatMap f).head?, endsWord c = true := by
  intro c hc
  -- only the first lexeme counts, and it is no operand
  cases h with
  | nil => cases hc
  | blank d hd _ =>
    rw [List.flatMap_cons, hf _ rfl] at hc
    cases hc
    exact endsWord_of_isSpace hd
  | symbol d token hd _ =>
    rw [List.flatMap_cons, hf _ rfl] at hc
    cases hc
    exact endsWord_of_ofByte? (Token.ofByte?_eq_some_iff.2 hd)

/-- The run that a bare name would go on with behind an operand is made of blanks. -/
theorem Spaced.run_behind (hf : ∀ l, l.isOperand = false → f l = l.text)
    (h : Spaced true ls) :
    ∀ c ∈ (ls.flatMap f).takeWhile Name.continuesName, Ascii.isSpace c = true := by
  -- blanks leave the flag as it is, so it has to be a variable of the induction
  obtain ⟨behind, hbehind⟩ : ∃ behind, behind = true := ⟨true, rfl⟩
  rw [← hbehind] at h
  induction h with
  | nil => simp
  | @blank _ rest d hd _ ih =>
    intro c hc
    rw [List.flatMap_cons, hf _ rfl, text, List.singleton_append, List.takeWhile_cons] at hc
    split at hc
    · rcases List.mem_cons.1 hc with rfl | hc
      · exact hd
      · exact ih hbehind c hc
    · cases hc
  | symbol d token hd _ _ =>
    have hends := (Token.continuesName_symbols _ hd).1
    intro c hc
    rw [List.flatMap_cons, hf _ rfl, text, List.singleton_append,
      List.takeWhile_cons_of_neg (by simp [hends])] at hc
    cases hc
  | operand => cases hbehind

end Lexeme

theorem any_isWord_of_endsWord {rest : Text} (hrest : ∀ c ∈ rest.head?, endsWord c = true) :
    rest.head?.any Ascii.isWord = false := by
  cases rest with
  | nil => rfl
  | cons c rest => exact isWord_of_endsWord (hrest c rfl)

/-- A literal may end in front of a blank, a symbol or nothing. -/
theorem mayEndBefore_of_endsWord {rest : Text} (hrest : ∀ c ∈ rest.head?, endsWord c = true) :
    Literal.mayEndBefore rest = true := by
  rw [Literal.mayEndBefore_iff]
  intro c hc
  have hword := isWord_of_endsWord (hrest c hc)
  simp only [Ascii.isWord, Ascii.isNameStart, Bool.or_eq_false_iff] at hword
  exact ⟨by simp [Ascii.isAlphanum, hword], ne_dot_of_endsWord (hrest c hc)⟩

/-! ### Tokens -/

theorem lex_of_dropWhile_eq_nil {s : Text} (h : s.dropWhile Ascii.isSpace = []) :
    lex s = .done := by
  rw [lex]
  split
  · rfl
  · rename_i h'
    rw [h] at h'
    cases h'

/-- What is read at the first byte that is no blank. -/
theorem lex_of_dropWhile_eq_cons {s rest : Text} {c : UInt8}
    (h : s.dropWhile Ascii.isSpace = c :: rest) :
    lex s =
      match Token.ofByte? c with
      | some token => (lex rest).cons token
      | none =>
        if Ascii.isDigit c || c == Ascii.dot then
          match Literal.read (c :: rest) with
          | .error cause => .fault cause
          | .ok (d, after) => (lex after).cons (.number d.toFloat)
        else .fault (.unexpected c) := by
  -- blanks are passed over before anything is asked, so that both match on one byte
  rw [lex]
  split
  · rename_i h'
    rw [h] at h'
    cases h'
  · rename_i h'
    rw [h] at h'
    cases h'
    cases Token.ofByte? c with
    | some token => rfl
    | none =>
      refine if_congr Iff.rfl ?_ rfl
      split <;> rename_i hread <;> rw [hread]

theorem lex_dropWhile (s : Text) : lex (s.dropWhile Ascii.isSpace) = lex s := by
  have hidem : (s.dropWhile Ascii.isSpace).dropWhile Ascii.isSpace
      = s.dropWhile Ascii.isSpace := List.dropWhile_idempotent _ _
  cases h : s.dropWhile Ascii.isSpace with
  | nil => rw [lex_of_dropWhile_eq_nil h, lex_of_dropWhile_eq_nil rfl]
  | cons c rest =>
    rw [h] at hidem
    rw [lex_of_dropWhile_eq_cons h, lex_of_dropWhile_eq_cons hidem]

theorem lex_cons_of_isSpace {c : UInt8} (hc : Ascii.isSpace c = true) (rest : Text) :
    lex (c :: rest) = lex rest := by
  rw [← lex_dropWhile, List.dropWhile_cons_of_pos hc, lex_dropWhile]

theorem isSpace_of_ofByte? {c : UInt8} {token : Token} (h : Token.ofByte? c = some token) :
    Ascii.isSpace c = false :=
  (Token.continuesName_symbols _ (Token.ofByte?_eq_some_iff.1 h)).2

theorem lex_cons_of_ofByte? {c : UInt8} {token : Token} (h : Token.ofByte? c = some token)
    (rest : Text) : lex (c :: rest) = (lex rest).cons token := by
  have hdrop : (c :: rest).dropWhile Ascii.isSpace = c :: rest :=
    Text.dropWhile_of_not (isSpace_of_ofByte? h)
  rw [lex_of_dropWhile_eq_cons hdrop, h]

/-- A byte that begins a literal is neither a blank nor a symbol. -/
theorem not_endsWord_of_isDigit_or_dot {c : UInt8}
    (hc : (Ascii.isDigit c || c == Ascii.dot) = true) :
    Ascii.isSpace c = false ∧ Token.ofByte? c = none := by
  rw [Bool.or_eq_true, beq_iff_eq] at hc
  rcases hc with hc | rfl
  · -- a digit is part of a word, and no symbol is
    have hword := Ascii.isWord_of_isDigit hc
    refine ⟨Name.isSpace_of_isWord hword, ?_⟩
    by_contra hne
    have hends : endsWord c = true := by
      rw [endsWord, Option.isSome_iff_ne_none.2 hne, Bool.or_true]
    rw [isWord_of_endsWord hends] at hword
    cases hword
  · decide

theorem lex_cons_of_isDigit_or_dot {c : UInt8}
    (hc : (Ascii.isDigit c || c == Ascii.dot) = true) (rest : Text) :
    lex (c :: rest) =
      match Literal.read (c :: rest) with
      | .error cause => .fault cause
      | .ok (d, after) => (lex after).cons (.number d.toFloat) := by
  obtain ⟨hspace, hbyte⟩ := not_endsWord_of_isDigit_or_dot hc
  have hdrop : (c :: rest).dropWhile Ascii.isSpace = c :: rest := Text.dropWhile_of_not hspace
  rw [lex_of_dropWhile_eq_cons hdrop, hbyte]
  exact if_pos hc

/-- **A figure is read as its number**, where a literal may end. -/
theorem lex_figure_append (f : Figure) {rest : Text} (h : Literal.mayEndBefore rest = true) :
    lex (f.text ++ rest) = (lex rest).cons (.number f.decimal.toFloat) := by
  have hread := f.read_append h
  obtain ⟨c, tail, htext, hc⟩ := f.exists_eq_cons
  rw [htext, List.cons_append] at hread ⊢
  rw [lex_cons_of_isDigit_or_dot hc, hread]

/-- **Lexemes without references are read** as their tokens. -/
theorem lex_texts {behind : Bool} {ls : List Lexeme} (hspaced : Lexeme.Spaced behind ls)
    (hnames : ∀ l ∈ ls, l.name? = none) (value : Text → Float) :
    lex (Lexeme.texts ls) = ⟨Lexeme.tokens value ls, none⟩ := by
  -- the induction is on what keeps the lexemes apart, as a literal needs to know what is behind
  induction hspaced with
  | nil => exact lex_of_dropWhile_eq_nil rfl
  | blank c hc _ ih =>
    have htail := ih fun l hl => hnames l (List.mem_cons_of_mem _ hl)
    rw [Lexeme.texts_cons, Lexeme.text, List.singleton_append, lex_cons_of_isSpace hc, htail]
    rfl
  | symbol c token hc _ ih =>
    have htail := ih fun l hl => hnames l (List.mem_cons_of_mem _ hl)
    rw [Lexeme.texts_cons, Lexeme.text, List.singleton_append,
      lex_cons_of_ofByte? (Token.ofByte?_eq_some_iff.2 hc), htail]
    rfl
  | @operand l rest hl h ih =>
    have htail := ih fun l hl => hnames l (List.mem_cons_of_mem _ hl)
    have hl' := hnames l List.mem_cons_self
    cases l with
    | numeral n x hx =>
      have hbehind : ∀ c ∈ (Lexeme.texts rest).head?, endsWord c = true :=
        -- as something else stands behind it, the whole literal is read and no more
        h.head_behind fun _ _ => rfl
      rw [Lexeme.texts_cons, Lexeme.text, ← n.text_figure,
        lex_figure_append n.figure (mayEndBefore_of_endsWord hbehind), htail,
        ← Figure.eq_toFloat hx]
      rfl
    -- everything else is no operand, or a reference
    | blank => cases hl
    | symbol => cases hl
    | bare => cases hl'
    | bracketed => cases hl'

/-! ### Bare names -/

/-- The exponent of a literal is no name, behind the digits that it goes with. -/
theorem bareNames_exponent_append (exponent? : Option Exponent) {w rest : Text}
    (hw : ∀ c ∈ w, Ascii.isDigit c = true) (hne : w ≠ [])
    (hrest : rest.head?.any Ascii.isWord = false) :
    Name.bareNames (w ++ (exponent?.elim [] Exponent.text ++ rest)) = Name.bareNames rest := by
  have hdigits : ∀ d : Text, (∀ c ∈ d, Ascii.isDigit c = true) →
      ∀ c ∈ d, Ascii.isWord c = true := fun d hd c hc => Ascii.isWord_of_isDigit (hd c hc)
  have hhead : ∀ d : Text, (∀ c ∈ d, Ascii.isDigit c = true) → d ≠ [] → ∀ t,
      (d ++ t).head?.any Ascii.isDigit = true := by
    intro d hd hne t
    obtain ⟨c, d, rfl⟩ := List.exists_cons_of_ne_nil hne
    exact hd c List.mem_cons_self
  -- with an exponent there is a letter in the word, and so the sign decides where the word ends
  cases exponent? with
  | none =>
    have hhead' := hhead w hw hne []
    rw [List.append_nil] at hhead'
    exact Name.bareNames_append_of_isDigit hhead' (hdigits w hw) hrest
  | some e =>
    have hletter : Ascii.isWord e.letter = true :=
      Ascii.isWord_of_isNameStart (Literal.isNameStart_of_opensExponent e.opens)
    have hword : ∀ t : Text, (∀ c ∈ t, Ascii.isWord c = true) →
        ∀ c ∈ w ++ e.letter :: t, Ascii.isWord c = true := by
      intro t ht c hc
      rcases List.mem_append.1 hc with hc | hc
      · exact hdigits w hw c hc
      · rcases List.mem_cons.1 hc with rfl | hc
        · exact hletter
        · exact ht c hc
    rw [Option.elim_some, Exponent.text]
    cases hsign : e.sign? with
    | none =>
      -- one word up to the end of the exponent
      have hsplit : w ++ (e.letter :: ((none : Option UInt8).toList ++ e.digits) ++ rest)
          = (w ++ e.letter :: e.digits) ++ rest := by
        rw [List.append_assoc]
        rfl
      rw [hsplit]
      exact Name.bareNames_append_of_isDigit (hhead w hw hne _)
        (hword _ (hdigits _ e.allDigits)) hrest
    | some c =>
      -- the sign ends the word, and the digits behind it are one of their own
      have hc : Ascii.isWord c = false := by
        rcases e.isSign c hsign with rfl | rfl <;> rfl
      have hsplit : w ++ (e.letter :: ((some c).toList ++ e.digits) ++ rest)
          = (w ++ [e.letter]) ++ c :: (e.digits ++ rest) := by
        rw [List.append_assoc]
        rfl
      have hdigits' := hhead e.digits e.allDigits e.digits_ne_nil []
      rw [List.append_nil] at hdigits'
      have hfirst := Name.bareNames_append_of_isDigit (t := c :: (e.digits ++ rest))
        (hhead w hw hne [e.letter]) (hword [] (by simp)) hc
      rw [hsplit, hfirst, Name.bareNames_cons_of_not_isWord hc]
      exact Name.bareNames_append_of_isDigit hdigits' (hdigits _ e.allDigits) hrest

/-- **There are no names in a literal.** -/
theorem Numeral.bareNames_append (n : Numeral) {rest : Text}
    (hrest : rest.head?.any Ascii.isWord = false) :
    Name.bareNames (n.text ++ rest) = Name.bareNames rest := by
  rw [Numeral.text, List.append_assoc, List.append_assoc]
  -- by the point, on both sides of which a word of digits may begin
  cases hfraction : n.fraction? with
  | none =>
    have hne : n.whole ≠ [] := by
      have := n.hasDigit
      simpa [hfraction] using this
    exact bareNames_exponent_append n.exponent? n.wholeDigits hne hrest
  | some part =>
    have hpoint : Name.bareNames (n.whole ++ (Ascii.dot :: part
        ++ (n.exponent?.elim [] Exponent.text ++ rest)))
        = Name.bareNames (part ++ (n.exponent?.elim [] Exponent.text ++ rest)) := by
      rw [List.cons_append, Name.bareNames_append_cons rfl]
      -- what stands in front of the point is a word of digits, or nothing
      by_cases hne : n.whole = []
      · rw [hne, Name.bareNames_nil, List.nil_append]
      · have hwhole : Name.bareNames (n.whole ++ ([] ++ [])) = Name.bareNames [] :=
          bareNames_exponent_append none n.wholeDigits hne rfl
        rw [List.append_nil, List.append_nil, Name.bareNames_nil] at hwhole
        rw [hwhole, List.nil_append]
    rw [Option.elim_some, hpoint]
    by_cases hne : part = []
    · -- nothing stands behind the point, so an exponent could not either
      subst hne
      have hnone : n.exponent? = none := by
        by_contra hsome
        exact n.pointBeforeDigit (Option.isSome_iff_ne_none.2 hsome) hfraction
      rw [hnone]
      rfl
    · exact bareNames_exponent_append n.exponent? (n.fractionDigits part hfraction) hne hrest

namespace Lexeme

/-- The text of a lexeme with a reference in brackets blotted out. -/
def outside : Lexeme → Text
  | bracketed _ _ => [Ascii.space]
  | l => l.text

/-- The name of a reference by a bare name. -/
def bareName? : Lexeme → Option Text
  | bare name _ => some name
  | _ => none

theorem outside_of_not_isOperand {l : Lexeme} (h : l.isOperand = false) :
    l.outside = l.text := by
  cases l <;> first | rfl | cases h

/-- **The bare names of lexemes are found**, in order, once brackets are blotted out. -/
theorem bareNames_outside {behind : Bool} {ls : List Lexeme} (h : Spaced behind ls) :
    Name.bareNames (ls.flatMap outside) = ls.filterMap bareName? := by
  -- lexeme by lexeme, where only operands are words
  induction h with
  | nil => exact Name.bareNames_nil
  | @blank _ rest c hc _ ih =>
    have hword := isWord_of_endsWord (endsWord_of_isSpace hc)
    exact (Name.bareNames_cons_of_not_isWord hword _).trans ih
  | @symbol _ rest c token hc _ ih =>
    have hword := isWord_of_endsWord (endsWord_of_ofByte? (Token.ofByte?_eq_some_iff.2 hc))
    exact (Name.bareNames_cons_of_not_isWord hword _).trans ih
  | @operand l rest hl h ih =>
    -- what is behind ends a word, and ends a name but for blanks
    have hhead := any_isWord_of_endsWord (h.head_behind fun _ => outside_of_not_isOperand)
    have hrun := h.run_behind fun _ => outside_of_not_isOperand
    cases l with
    | numeral n => exact (n.bareNames_append hhead).trans ih
    | bare name hname =>
      refine (Name.bareNames_append_of_isBare hname hrun).trans ?_
      rw [ih]
      rfl
    | bracketed inside hinside =>
      exact (Name.bareNames_cons_of_not_isWord (by decide) _).trans ih
    | blank => cases hl
    | symbol => cases hl

end Lexeme

/-! ### Brackets -/

theorem Text.splitAt?_append {stop : UInt8} {s : Text} (h : stop ∉ s) (t : Text) :
    splitAt? stop (s ++ stop :: t) = some (s, t) := by
  induction s with
  | nil => rw [List.nil_append, splitAt?, if_pos (beq_self_eq_true stop)]
  | cons c s ih =>
    rw [List.mem_cons, not_or] at h
    rw [List.cons_append, splitAt?, if_neg (by simpa using Ne.symm h.1), ih h.2]
    rfl

/-- Text without brackets is cut into bytes. -/
theorem segments_append_of_notMem {s : Text} (h : Ascii.leftBracket ∉ s) (t : Text) :
    segments (s ++ t) = s.map Segment.byte ++ segments t := by
  induction s with
  | nil => rfl
  | cons c s ih =>
    rw [List.mem_cons, not_or] at h
    rw [List.cons_append, segments, if_neg (by simpa using Ne.symm h.1), ih h.2]
    rfl

theorem segments_reference_append {inside : Text} (h : Ascii.rightBracket ∉ inside) (t : Text) :
    segments ((Segment.reference inside).text ++ t) = .reference inside :: segments t := by
  -- the first closing bracket is the one of the reference
  have hsplit := Text.splitAt?_append h t
  rw [Segment.text, List.append_assoc, List.cons_append, List.singleton_append, segments,
    if_pos (beq_self_eq_true _)]
  split
  · rename_i hnone
    rw [hsplit] at hnone
    cases hnone
  · rename_i inside' after hsome
    rw [hsplit] at hsome
    cases hsome
    rfl

namespace Lexeme

/-- The segments of one lexeme. -/
def segments : Lexeme → List Segment
  | bracketed inside _ => [.reference inside]
  | l => l.text.map .byte

/-- **Cutting finds the brackets of lexemes**, whatever stands behind. -/
theorem segments_texts_append (ls : List Lexeme) (t : Text) :
    AssayRules.segments (texts ls ++ t) = ls.flatMap segments ++ AssayRules.segments t := by
  -- lexeme by lexeme, each of which is cut by itself
  induction ls with
  | nil => rfl
  | cons l ls ih =>
    -- no lexeme but a reference in brackets has a bracket in it
    have hplain : (∀ inside h, l ≠ .bracketed inside h) → Ascii.leftBracket ∉ l.text := by
      intro hl hmem
      cases isPlain_of_mem_text hl hmem
    rw [texts_cons, List.append_assoc, List.flatMap_cons, List.append_assoc, ← ih]
    cases l with
    | bracketed inside hinside => exact segments_reference_append hinside _
    | _ => exact segments_append_of_notMem (hplain (by intro inside h heq; cases heq)) _

theorem segments_texts (ls : List Lexeme) :
    AssayRules.segments (texts ls) = ls.flatMap segments := by
  have h := segments_texts_append ls []
  rwa [List.append_nil, segments_nil, List.append_nil] at h

/-- The brackets of lexemes are closed. -/
theorem isUnclosed_segments_texts (ls : List Lexeme) :
    (AssayRules.segments (texts ls)).any Segment.isUnclosed = false := by
  rw [segments_texts, List.any_eq_false]
  intro part hpart
  -- the segments are those of the lexemes, and each of these closes its brackets
  obtain ⟨l, -, hpart⟩ := List.mem_flatMap.1 hpart
  cases l with
  | bracketed =>
    rw [List.mem_singleton.1 hpart]
    simp [Segment.isUnclosed]
  | _ =>
    obtain ⟨c, -, rfl⟩ := List.mem_map.1 hpart
    simp [Segment.isUnclosed]

end Lexeme

/-! ### From text back to lexemes -/

/-- No reserved word begins like an exponent. -/
theorem not_isReserved_of_opensExponent {c : UInt8} (h : Literal.opensExponent c = true)
    (s : Text) : Name.isReserved (c :: s) = false := by
  simp only [Literal.opensExponent, Bool.or_eq_true, beq_iff_eq] at h
  rw [Name.isReserved, ← Bool.not_eq_true, List.contains_iff_mem]
  intro hmem
  -- first bytes are enough to tell
  have hhead : some c ∈ Name.reservedWords.map List.head? :=
    List.mem_map_of_mem (f := List.head?) hmem
  rcases h with rfl | rfl <;> exact absurd hhead (by decide)

/-- An exponent in front is found as a name. -/
theorem bareNames_exponent_ne_nil (e : Exponent) (t : Text) :
    Name.bareNames (e.text ++ t) ≠ [] := by
  have hstart := Literal.isNameStart_of_opensExponent e.opens
  have hspace := Name.isSpace_of_isWord (Ascii.isWord_of_isNameStart hstart)
  rw [Exponent.text, List.cons_append, Name.bareNames_cons_of_isNameStart hstart]
  obtain ⟨cut, hcut⟩ := Text.exists_trim_cons hspace
    ((e.sign?.toList ++ e.digits ++ t).takeWhile Name.continuesName)
  rw [hcut, if_neg (by simp [not_isReserved_of_opensExponent e.opens])]
  exact List.cons_ne_nil _ _

/-- **What is read as a literal is one**, if it leaves no name behind its point. -/
theorem Numeral.exists_of_read {s after : Text} {d : Decimal}
    (h : Literal.read s = .ok (d, after)) (hnames : Name.bareNames s = []) :
    ∃ n : Numeral, n.text ++ after = s ∧ n.decimal = d := by
  -- what is read is a figure, and what makes it a numeral is that no name was found in it
  obtain ⟨f, htext, -, hdecimal, -⟩ := Figure.exists_of_read h
  have hpoint : f.exponent?.isSome = true → f.fraction? ≠ some [] := by
    intro hisSome hpoint
    obtain ⟨e, hexponent⟩ := Option.isSome_iff_exists.1 hisSome
    -- the exponent would be found as a name behind the point
    rw [htext, f.text_append, Figure.point, hpoint, hexponent, Option.elim_some,
      Option.elim_some, List.cons_append, Name.bareNames_append_cons rfl] at hnames
    exact bareNames_exponent_ne_nil e _ (List.append_eq_nil_iff.1 hnames).2
  exact ⟨⟨f.whole, f.fraction?, f.exponent?, f.wholeDigits, f.fractionDigits, f.hasDigit, hpoint⟩,
    htext.symm, hdecimal⟩

theorem Reading.cons_eq_iff {token : Token} {reading : Reading} {ts : List Token} :
    reading.cons token = ⟨ts, none⟩ ↔ ∃ rest, ts = token :: rest ∧ reading = ⟨rest, none⟩ := by
  obtain ⟨rs, fault?⟩ := reading
  constructor
  · intro h
    obtain ⟨htokens, hfault⟩ := Reading.mk.inj h
    exact ⟨rs, htokens.symm, congrArg (Reading.mk rs) hfault⟩
  · rintro ⟨rest, rfl, heq⟩
    rw [heq]
    rfl

/-- Text that can be read and stands behind a literal begins with a blank or a symbol. -/
theorem endsWord_of_lex {s : Text} {ts : List Token} (h : lex s = ⟨ts, none⟩)
    (hend : Literal.mayEndBefore s = true) : ∀ c ∈ s.head?, endsWord c = true := by
  intro c hc
  cases s with
  | nil => cases hc
  | cons d rest =>
    obtain rfl : d = c := Option.some.inj hc
    by_contra hnot
    rw [endsWord, Bool.or_eq_true, not_or] at hnot
    obtain ⟨hspace, hbyte⟩ := hnot
    -- it would have to begin a literal, which is just what it does not
    have hdrop : (d :: rest).dropWhile Ascii.isSpace = d :: rest :=
      List.dropWhile_cons_of_neg hspace
    have hnumber : ¬ (Ascii.isDigit d || d == Ascii.dot) = true := by
      simp only [Literal.mayEndBefore, Ascii.isAlphanum] at hend
      grind
    rw [lex_of_dropWhile_eq_cons hdrop, Option.not_isSome_iff_eq_none.1 hbyte] at h
    dsimp only at h
    rw [if_neg hnumber] at h
    cases h

/-- **Induction along reading** without a fault: blanks, symbols and literals follow one another,
and behind a literal stands what ends a word. -/
theorem lex_induction {motive : Text → List Token → Prop} (nil : motive [] [])
    (blank : ∀ c rest ts, Ascii.isSpace c = true → motive rest ts → motive (c :: rest) ts)
    (symbol : ∀ c token rest ts, Token.ofByte? c = some token → motive rest ts →
      motive (c :: rest) (token :: ts))
    (literal : ∀ s d after ts, Literal.read s = .ok (d, after) →
      (∀ c ∈ after.head?, endsWord c = true) → motive after ts →
      motive s (.number d.toFloat :: ts))
    {s : Text} {ts : List Token} (h : lex s = ⟨ts, none⟩) : motive s ts := by
  -- the induction is on length, as a literal takes several bytes at once
  induction hn : s.length using Nat.strongRecOn generalizing s ts with
  | ind n ih =>
    subst hn
    cases s with
    | nil =>
      rw [lex_of_dropWhile_eq_nil rfl] at h
      cases h
      exact nil
    | cons c rest =>
      -- a byte that is no literal is taken off by itself
      have hlt : rest.length < (c :: rest).length := Nat.lt_succ_self _
      by_cases hspace : Ascii.isSpace c = true
      · rw [lex_cons_of_isSpace hspace] at h
        exact blank c rest ts hspace (ih _ hlt h rfl)
      cases hbyte : Token.ofByte? c with
      | some token =>
        rw [lex_cons_of_ofByte? hbyte, Reading.cons_eq_iff] at h
        obtain ⟨ts', rfl, h⟩ := h
        exact symbol c token rest ts' hbyte (ih _ hlt h rfl)
      | none =>
        -- nothing but a literal can begin here
        rw [lex_of_dropWhile_eq_cons (List.dropWhile_cons_of_neg hspace), hbyte] at h
        dsimp only at h
        split at h
        · split at h
          · cases h
          · rename_i d after hread
            rw [Reading.cons_eq_iff] at h
            obtain ⟨ts', rfl, h⟩ := h
            obtain ⟨-, -, -, -, hend⟩ := Figure.exists_of_read hread
            exact literal _ d after ts' hread (endsWord_of_lex h hend)
              (ih _ (Literal.length_lt_of_read hread) h rfl)
        · cases h

/-- **What has no tokens** is blank. -/
theorem isSpace_of_lex_nil {s : Text} (h : lex s = ⟨[], none⟩) :
    ∀ c ∈ s, Ascii.isSpace c = true := by
  obtain ⟨ts, hts⟩ : ∃ ts : List Token, ts = [] := ⟨[], rfl⟩
  rw [← hts] at h
  revert hts
  refine lex_induction (motive := fun s ts => ts = [] → ∀ c ∈ s, Ascii.isSpace c = true) ?nil
    ?blank ?symbol ?literal h
  case nil => simp
  case blank => exact fun c rest ts hc ih hts => List.forall_mem_cons.2 ⟨hc, ih hts⟩
  case symbol => rintro c token rest ts - - ⟨⟩
  case literal => rintro s d after ts - - - ⟨⟩

theorem Literal.isPlain_of_read {s after : Text} {d : Decimal} (h : read s = .ok (d, after))
    (hafter : ∀ c ∈ after, Lexeme.isPlain c = true) : ∀ c ∈ s, Lexeme.isPlain c = true := by
  obtain ⟨f, rfl, -⟩ := Figure.exists_of_read h
  exact List.forall_mem_append.2
    ⟨fun c hc => Lexeme.isPlain_of_isPart (f.isPart_of_mem_text hc), hafter⟩

/-- **What can be read is plain**: there is no bracket in it, and no comma. -/
theorem isPlain_of_lex {s : Text} {ts : List Token} (h : lex s = ⟨ts, none⟩) :
    ∀ c ∈ s, Lexeme.isPlain c = true := by
  refine lex_induction (motive := fun s _ => ∀ c ∈ s, Lexeme.isPlain c = true) ?nil ?blank ?symbol
    ?literal h
  case nil => simp
  case blank =>
    exact fun c rest _ hc ih => List.forall_mem_cons.2 ⟨by simp [Lexeme.isPlain, hc], ih⟩
  case symbol =>
    exact fun c _ rest _ hc ih => List.forall_mem_cons.2 ⟨by simp [Lexeme.isPlain, hc], ih⟩
  case literal => exact fun s _ _ _ hread _ ih => Literal.isPlain_of_read hread ih

/-- **What is read without a fault is a row of lexemes**, if there is no name in it. -/
theorem exists_lexemes_of_lex {s : Text} {ts : List Token} (h : lex s = ⟨ts, none⟩)
    (hnames : Name.bareNames s = []) :
    ∃ ls, Lexeme.texts ls = s ∧ (∀ l ∈ ls, l.name? = none) ∧
      ∀ value, Lexeme.tokens value ls = ts := by
  -- the texts without names are taken apart as they are read, and a name would be left over
  revert hnames
  refine lex_induction (motive := fun s ts => Name.bareNames s = [] →
    ∃ ls, Lexeme.texts ls = s ∧ (∀ l ∈ ls, l.name? = none) ∧
      ∀ value, Lexeme.tokens value ls = ts) ?nil ?blank ?symbol ?literal h
  case nil => exact fun _ => ⟨[], rfl, by simp, fun _ => rfl⟩
  case blank =>
    intro c rest ts hspace ih hnames
    rw [Name.bareNames_cons_of_not_isWord (Name.isWord_of_isSpace hspace)] at hnames
    obtain ⟨ls, hls, hnone, htokens⟩ := ih hnames
    refine ⟨.blank c hspace :: ls, by rw [Lexeme.texts_cons, hls]; rfl, ?_, htokens⟩
    exact List.forall_mem_cons.2 ⟨rfl, hnone⟩
  case symbol =>
    intro c token rest ts htoken ih hnames
    rw [Name.bareNames_cons_of_not_isWord (isWord_of_endsWord (endsWord_of_ofByte? htoken))]
      at hnames
    obtain ⟨ls, hls, hnone, htokens⟩ := ih hnames
    refine ⟨.symbol c token (Token.ofByte?_eq_some_iff.1 htoken) :: ls,
      by rw [Lexeme.texts_cons, hls]; rfl, List.forall_mem_cons.2 ⟨rfl, hnone⟩, ?_⟩
    exact fun value => congrArg (token :: ·) (htokens value)
  case literal =>
    intro s d after ts hread hbehind ih hnames
    obtain ⟨m, htext, hdecimal⟩ := Numeral.exists_of_read hread hnames
    -- names behind the literal would have been found from here, too
    have hnames' : Name.bareNames after = [] := by
      rw [← m.bareNames_append (any_isWord_of_endsWord hbehind), htext, hnames]
    obtain ⟨ls, hls, hnone, htokens⟩ := ih hnames'
    refine ⟨.numeral m _ m.figure.roundsTo_toFloat :: ls, ?_,
      List.forall_mem_cons.2 ⟨rfl, hnone⟩, fun value => ?_⟩
    · rw [Lexeme.texts_cons, hls]
      exact htext
    · rw [← hdecimal]
      exact congrArg (_ :: ·) (htokens value)

end AssayRules
