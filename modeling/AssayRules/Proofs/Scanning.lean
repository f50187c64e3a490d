import AssayRules.Proofs.Lexing

/-!
# The texts that can be read

Text free of variables is a row of lexemes with blanks between them, up to its end or to a place
where no lexeme stands. `Scans` and `Faults` say what that is without reading: a lexeme is an
operator, a parenthesis or a figure, and a figure is the longest at its place, is not directly
followed by a letter, a digit or a point, and stands for the double nearest to its value
(`RoundsTo`).

Reading goes along such a row and gives the tokens of its lexemes (`Scans.lex_eq`), it ends where
no lexeme stands (`Faults.lex_eq`), and every text is such a row (`exists_scans`). As reading has
one outcome only, the row is all there is to say about it (`lex_eq_iff_scans`).
-/

namespace AssayRules

/-! ### Rows of lexemes -/

/-- **A row of lexemes**, with blanks anywhere between them, at the front of a text: the tokens
that they write, and what stands behind. A lexeme is an operator, a parenthesis, or the longest
figure that stands at its place, which must not be followed directly by a letter, a digit or a
point. -/
inductive Scans : Text → List Token → Text → Prop
  | done (rest : Text) : Scans rest [] rest
  | blank {s rest : Text} {ts : List Token} (c : UInt8) (isSpace : Ascii.isSpace c = true)
      (scans : Scans s ts rest) : Scans (c :: s) ts rest
  | symbol {s rest : Text} {ts : List Token} (c : UInt8) (token : Token)
      (writes : (c, token) ∈ Token.symbols) (scans : Scans s ts rest) :
      Scans (c :: s) (token :: ts) rest
  | figure {s rest : Text} {ts : List Token} (f : Figure) (x : Float)
      (longest : f.IsLongest (f.text ++ s))
      (ends : ∀ c ∈ s.head?, Ascii.isAlphanum c = false ∧ c ≠ Ascii.dot)
      (rounds : RoundsTo f.value x) (scans : Scans s ts rest) :
      Scans (f.text ++ s) (.number x :: ts) rest

/-- **A place where no lexeme stands**, and what is wrong there: a byte that begins none, a point
without a digit, or a figure that runs on. -/
inductive Faults : Text → Malformed → Prop
  | unexpected (c : UInt8) (rest : Text) (notSpace : Ascii.isSpace c = false)
      (notSymbol : ∀ symbol ∈ Token.symbols, c ≠ symbol.1) (notDigit : Ascii.isDigit c = false)
      (notDot : c ≠ Ascii.dot) : Faults (c :: rest) (.unexpected c)
  | digitsMissing (rest : Text) (notDigit : rest.head?.any Ascii.isDigit = false) :
      Faults (Ascii.dot :: rest) .digitsMissing
  | runsOn (f : Figure) (c : UInt8) (rest : Text) (longest : f.IsLongest (f.text ++ c :: rest))
      (goesOn : Ascii.isAlphanum c = true ∨ c = Ascii.dot) :
      Faults (f.text ++ c :: rest) (.numberRunsOn (f.text ++ [c]))

variable {s rest : Text} {ts : List Token} {cause : Malformed}

/-- What is read behind a row is read behind its tokens. -/
theorem Scans.lex_eq (h : Scans s ts rest) :
    lex s = ⟨ts ++ (lex rest).tokens, (lex rest).fault?⟩ := by
  induction h with
  | done rest => rfl
  | blank c hspace _ ih => rw [lex_cons_of_isSpace hspace, ih]
  | symbol c token hc _ ih =>
    rw [lex_cons_of_ofByte? (Token.ofByte?_eq_some_iff.2 hc), ih]
    rfl
  | figure f x _ hends hx _ ih =>
    rw [lex_figure_append f (Literal.mayEndBefore_iff.2 hends), ih, Figure.eq_toFloat hx]
    rfl

/-- **Nothing is read where no lexeme stands.** -/
theorem Faults.lex_eq (h : Faults rest cause) : lex rest = ⟨[], some cause⟩ := by
  -- by the way in which reading can fail
  cases h with
  | unexpected c rest hspace hsymbol hdigit hdot =>
    have hdrop : (c :: rest).dropWhile Ascii.isSpace = c :: rest := Text.dropWhile_of_not hspace
    have hnumber : ¬ (Ascii.isDigit c || c == Ascii.dot) = true := by simp [hdigit, hdot]
    rw [lex_of_dropWhile_eq_cons hdrop, Token.ofByte?_eq_none_iff.2 hsymbol]
    exact if_neg hnumber
  | digitsMissing rest hdigit =>
    rw [lex_cons_of_isDigit_or_dot rfl, Literal.read_dot hdigit]
    rfl
  | runsOn f c rest hlongest hgoes =>
    obtain ⟨d, tail, htext, hd⟩ := f.exists_eq_cons
    have hread : Literal.read (f.text ++ c :: rest) = .error (.numberRunsOn (f.text ++ [c])) := by
      -- of all figures in front reading takes the longest, so that it takes this one
      rcases Literal.read_cases (f.text ++ c :: rest) with ⟨-, hnone⟩ | ⟨g, after, hs, hg, hread⟩
      · exact absurd hlongest.1 (hnone f)
      · have hgtext := hg.text_eq hlongest
        rw [hgtext] at hs hread
        obtain rfl := List.append_cancel_left hs
        have hend : ¬ Literal.mayEndBefore (c :: rest) = true := by
          rw [Literal.mayEndBefore_iff]
          intro hend
          obtain ⟨hword, hdot⟩ := hend c rfl
          exact hgoes.elim (by simp [hword]) hdot
        rw [hread, if_neg hend, List.take_length_add_append]
        rfl
    rw [htext, List.cons_append] at hread ⊢
    rw [lex_cons_of_isDigit_or_dot hd, hread]
    rfl

theorem Scans.of_dropWhile (h : Scans (s.dropWhile Ascii.isSpace) ts rest) : Scans s ts rest := by
  induction s with
  | nil => exact h
  | cons c s ih =>
    by_cases hc : Ascii.isSpace c = true
    · rw [List.dropWhile_cons_of_pos hc] at h
      exact .blank c hc (ih h)
    · rwa [List.dropWhile_cons_of_neg hc] at h

/-- **A literal that is refused** is a point without a digit, or a figure that runs on. -/
theorem Faults.of_read {c : UInt8} (hc : (Ascii.isDigit c || c == Ascii.dot) = true)
    (h : Literal.read (c :: rest) = .error cause) : Faults (c :: rest) cause := by
  -- there is no figure in front, or there is one that runs on
  rcases Literal.read_cases (c :: rest) with ⟨hread, hnone⟩ | ⟨f, after, hs, hlongest, hread⟩
  · obtain rfl := Except.error.inj (hread.symm.trans h)
    -- one digit would do for a figure
    have hdigits : ∀ d, Ascii.isDigit d = true → ∀ c ∈ [d], Ascii.isDigit c = true :=
      fun d hd => List.forall_mem_singleton.2 hd
    have hnot : ¬ Ascii.isDigit c = true := fun hdigit =>
      hnone ⟨[c], none, none, hdigits c hdigit, by simp, Or.inl (List.cons_ne_nil _ _)⟩
        ⟨rest, rfl⟩
    rw [Bool.or_eq_true, beq_iff_eq] at hc
    obtain rfl := hc.resolve_left hnot
    refine .digitsMissing rest ?_
    cases rest with
    | nil => rfl
    -- a digit behind the point would do for one, too
    | cons d rest =>
      refine Bool.not_eq_true _ ▸ fun hdigit => ?_
      exact hnone ⟨[], some [d], none, by simp, by simpa using hdigit,
        Or.inr (List.cons_ne_nil _ _)⟩ ⟨rest, rfl⟩
  · rw [hread] at h
    split_ifs at h with hend
    obtain rfl := Except.error.inj h
    cases after with
    | nil => exact absurd rfl hend
    | cons d after =>
      have hgoes : Ascii.isAlphanum d = true ∨ d = Ascii.dot := by
        simpa [Literal.mayEndBefore, or_iff_not_imp_left] using hend
      rw [hs] at hlongest ⊢
      rw [List.take_length_add_append]
      exact .runsOn f d after hlongest hgoes

/-- **What may stand behind a row**, for each way in which reading ends. -/
def EndsAt (rest : Text) : Option Malformed → Prop
  | none => rest = []
  | some cause => Faults rest cause

theorem EndsAt.lex_eq {fault? : Option Malformed} (h : EndsAt rest fault?) :
    lex rest = ⟨[], fault?⟩ := by
  cases fault? with
  | none =>
    rw [EndsAt] at h
    rw [h, lex_of_dropWhile_eq_nil rfl]
    rfl
  | some cause => exact Faults.lex_eq h

/-- **A text is a row of lexemes** up to where its reading ends. -/
theorem exists_scans (s : Text) :
    ∃ rest, Scans s (lex s).tokens rest ∧ EndsAt rest (lex s).fault? := by
  -- along the reading of the text, a lexeme at a time
  fun_induction lex s with
  | case1 s h => exact ⟨[], .of_dropWhile (h ▸ .done []), rfl⟩
  | case2 s c rest h token hc ih =>
    obtain ⟨behind, hscans, hends⟩ := ih
    have hsymbol := Token.ofByte?_eq_some_iff.1 hc
    exact ⟨behind, .of_dropWhile (h ▸ .symbol c token hsymbol hscans), hends⟩
  | case3 s c rest h hc hbegins cause hread =>
    exact ⟨c :: rest, .of_dropWhile (h ▸ .done _), .of_read hbegins hread⟩
  | case4 s c rest h hc hbegins d after hread ih =>
    obtain ⟨behind, hscans, hends⟩ := ih
    -- the literal is the longest figure in front, and it may end where it does
    obtain ⟨f, hf, hlongest, rfl, hend⟩ := Figure.exists_of_read hread
    rw [hf] at h hlongest
    exact ⟨behind, .of_dropWhile (h ▸ .figure f _ hlongest (Literal.mayEndBefore_iff.1 hend)
      f.roundsTo_toFloat hscans), hends⟩
  | case5 s c rest h hc hbegins =>
    rw [Bool.or_eq_true, beq_iff_eq, not_or, Bool.not_eq_true] at hbegins
    have hspace := List.head?_dropWhile_not Ascii.isSpace s
    rw [h] at hspace
    exact ⟨c :: rest, .of_dropWhile (h ▸ .done _), .unexpected c rest hspace
      (Token.ofByte?_eq_none_iff.1 hc) hbegins.1 hbegins.2⟩

/-- **What reading comes to**, told by what the text is a row of. -/
theorem lex_eq_iff_scans {fault? : Option Malformed} :
    lex s = ⟨ts, fault?⟩ ↔ ∃ rest, Scans s ts rest ∧ EndsAt rest fault? := by
  constructor
  · intro h
    have hscans := exists_scans s
    rwa [h] at hscans
  · rintro ⟨rest, hscans, hends⟩
    rw [hscans.lex_eq, hends.lex_eq, List.append_nil]

end AssayRules
