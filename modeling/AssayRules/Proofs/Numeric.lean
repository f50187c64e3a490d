import AssayRules.Proofs.Lookup

/-!
# Numbers are not names

Two scanners go over a text without brackets: `lex` reads literals, and `Name.bareNames` looks for
names and knows of literals only that a word with a digit in front is none. They have to agree on
the letter of an exponent, and they do where a digit stands before it. Directly behind a point they
do not: `1.e5` is one number, and `e5` is found in it (`Name.behindPoints`).

In a text that can be read, no other letters stand anywhere (`isChain_of_lex`), and so these
are all the names that are found (`Name.bareNames_eq_behindPoints`). If there are none, the text
has no variables and evaluates as its tokens do; if there are any, it does not evaluate
(`substitute_of_lex`).
-/

namespace AssayRules

/-- **The names directly behind a point**: from the letter of an exponent as far as a name goes. -/
def Name.behindPoints : Text → List Text
  | [] => []
  | c :: rest =>
    if c == Ascii.dot && rest.head?.any Literal.opensExponent then
      Text.trim (rest.takeWhile continuesName) :: behindPoints rest
    else behindPoints rest

/-- **What a byte may stand behind**, if it may begin a name: it opens an exponent, behind a digit
or a point. -/
def ExponentBehind (a b : UInt8) : Prop :=
  Ascii.isNameStart b = true →
    Literal.opensExponent b = true ∧ (Ascii.isDigit a = true ∨ a = Ascii.dot)

variable {s t after : Text} {ts : List Token} {d : Decimal} {a b c : UInt8}

/-! ### The letters of what can be read -/

theorem ExponentBehind.of_not (h : Ascii.isNameStart b = false) : ExponentBehind a b := by
  intro hb
  rw [h] at hb
  cases hb

/-- What may stand behind a blank may stand behind anything. -/
theorem ExponentBehind.of_space (h : ExponentBehind Ascii.space b) : ExponentBehind a b := by
  intro hb
  rcases (h hb).2 with hspace | hspace <;> cases hspace

theorem isChain_exponentBehind_of_not (h : ∀ c ∈ s, Ascii.isNameStart c = false) :
    (a :: s).IsChain ExponentBehind := by
  induction s generalizing a with
  | nil => exact .singleton a
  | cons c s ih =>
    obtain ⟨hc, hs⟩ := List.forall_mem_cons.1 h
    exact .cons_cons (.of_not hc) (ih hs)

/-- A text in front of one that may stand behind a blank. -/
theorem isChain_append_of_space (hs : (a :: s).IsChain ExponentBehind)
    (ht : (Ascii.space :: t).IsChain ExponentBehind) : (a :: (s ++ t)).IsChain ExponentBehind := by
  obtain ⟨hhead, htail⟩ := List.isChain_cons.1 ht
  exact hs.append htail fun _ _ c hc => (hhead c hc).of_space

/-- The letter of an exponent stands behind a digit or a point, and it is the only one. -/
theorem Exponent.isChain_text (e : Exponent) (ha : Ascii.isDigit a = true ∨ a = Ascii.dot) :
    (a :: e.text).IsChain ExponentBehind := by
  refine .cons_cons (fun _ => ⟨e.opens, ha⟩) (isChain_exponentBehind_of_not fun c hc => ?_)
  rcases List.mem_append.1 hc with hc | hc
  · rcases e.isSign c (Option.mem_toList.1 hc) with rfl | rfl <;> rfl
  · exact isNameStart_of_isDigit (e.allDigits c hc)

/-- **What is read as a literal** has no letter but that of its exponent. -/
theorem Literal.isChain_of_read (h : read s = .ok (d, after))
    (hafter : (Ascii.space :: after).IsChain ExponentBehind) :
    (Ascii.space :: s).IsChain ExponentBehind := by
  obtain ⟨f, hs, -⟩ := Figure.exists_of_read h
  obtain ⟨front, hfront⟩ : ∃ front, front = f.whole ++ f.point := ⟨_, rfl⟩
  rw [Figure.text, ← hfront, List.append_assoc] at hs
  -- what stands in front of the exponent are digits and at most one point
  have hdigit : ∀ c ∈ front, Ascii.isDigit c = true ∨ c = Ascii.dot := by
    intro c hc
    rw [hfront, Figure.point] at hc
    rcases List.mem_append.1 hc with hc | hc
    · exact Or.inl (f.wholeDigits c hc)
    · cases hfraction : f.fraction? with
      | none =>
        rw [hfraction] at hc
        cases hc
      | some part =>
        rw [hfraction] at hc
        exact (List.mem_cons.1 hc).symm.imp_left (f.fractionDigits part hfraction c)
  -- a figure has a digit, on one side of the point or on the other
  have hne : front ≠ [] := by
    rintro rfl
    obtain ⟨hwhole, hpoint⟩ := List.append_eq_nil_iff.1 hfront.symm
    have hpart := f.hasDigit.resolve_left (absurd hwhole)
    cases hfraction : f.fraction? with
    | none =>
      rw [hfraction] at hpart
      exact hpart rfl
    | some part =>
      rw [Figure.point, hfraction] at hpoint
      cases hpoint
  have hnot : ∀ c ∈ front, Ascii.isNameStart c = false := by
    intro c hc
    rcases hdigit c hc with hc | rfl
    · exact isNameStart_of_isDigit hc
    · rfl
  rw [hs]
  -- the seam to the exponent is the only place where a letter may stand behind the front
  cases f.exponent? with
  | none => exact isChain_append_of_space (isChain_exponentBehind_of_not hnot) hafter
  | some e =>
    -- the front may end with either, and any byte of it will do for the seam
    have hbehind : ∀ a, Ascii.isDigit a = true ∨ a = Ascii.dot →
        (a :: (e.text ++ after)).IsChain ExponentBehind :=
      fun a ha => isChain_append_of_space (e.isChain_text ha) hafter
    refine (isChain_exponentBehind_of_not hnot).append (hbehind Ascii.dot (Or.inr rfl)).tail
      fun x hx y hy => ?_
    -- the last byte of the front
    rw [← List.singleton_append, List.getLast?_append_of_ne_nil _ hne] at hx
    exact (hbehind x (hdigit x (List.mem_of_getLast? hx))).rel_head? hy

theorem isChain_cons_of_endsWord (hc : endsWord c = true)
    (h : (Ascii.space :: s).IsChain ExponentBehind) :
    (Ascii.space :: c :: s).IsChain ExponentBehind := by
  have hword := isWord_of_endsWord hc
  have hstart : Ascii.isNameStart c = false := by
    by_contra hstart
    rw [Ascii.isWord_of_isNameStart (Bool.not_eq_false _ ▸ hstart)] at hword
    cases hword
  exact .cons_cons (.of_not hstart) (isChain_append_of_space (.singleton c) h)

/-- **What can be read** has no letters but those of exponents. -/
theorem isChain_of_lex (h : lex s = ⟨ts, none⟩) :
    (Ascii.space :: s).IsChain ExponentBehind := by
  refine lex_induction (motive := fun s _ => (Ascii.space :: s).IsChain ExponentBehind) ?nil
    ?blank ?symbol ?literal h
  case nil => exact .singleton _
  case blank => exact fun c _ _ hc => isChain_cons_of_endsWord (endsWord_of_isSpace hc)
  case symbol => exact fun c _ _ _ hc => isChain_cons_of_endsWord (endsWord_of_ofByte? hc)
  case literal => exact fun s d after _ hread _ => Literal.isChain_of_read hread

/-! ### The names that are found -/

namespace Name

theorem behindPoints_append_of_notMem (h : Ascii.dot ∉ s) (t : Text) :
    behindPoints (s ++ t) = behindPoints t := by
  induction s with
  | nil => rfl
  | cons c s ih =>
    rw [List.mem_cons, not_or] at h
    have hc : (c == Ascii.dot) = false := beq_eq_false_iff_ne.2 (Ne.symm h.1)
    rw [List.cons_append, behindPoints, hc, Bool.false_and, if_neg Bool.false_ne_true, ih h.2]

theorem behindPoints_cons_cons_of_not (h : ¬ Ascii.isNameStart c = true) :
    behindPoints (a :: c :: s) = behindPoints (c :: s) := by
  have hopens : Literal.opensExponent c = false :=
    Bool.not_eq_true _ ▸ fun hopens => h (Literal.isNameStart_of_opensExponent hopens)
  rw [behindPoints, List.head?_cons, Option.any_some, hopens, Bool.and_false,
    if_neg Bool.false_ne_true]

/-- A run of name bytes is passed over in one stride, up to a byte that ends it. -/
theorem stride {p : UInt8 → Bool} (hp : ∀ c, p c = true → continuesName c = true)
    (hword : ∀ c, Ascii.isWord c = true → p c = true) (hc : continuesName c = true)
    (h : (a :: c :: s).IsChain ExponentBehind) :
    behindPoints (c :: s) = behindPoints (Ascii.space :: s.dropWhile p) ∧
      (Ascii.space :: s.dropWhile p).IsChain ExponentBehind := by
  -- the stride is passed over as a whole, and so is whatever point it ends before
  have hsplit : c :: s = (c :: s.takeWhile p) ++ s.dropWhile p := by
    rw [List.cons_append, List.takeWhile_append_dropWhile]
  have hdot : Ascii.dot ∉ c :: s.takeWhile p := by
    intro hmem
    rcases List.mem_cons.1 hmem with rfl | hmem
    · cases hc
    · cases hp _ (List.mem_takeWhile_imp hmem)
  refine ⟨?_, List.isChain_cons.2 ⟨fun d hd => .of_not ?_, ?_⟩⟩
  · rw [hsplit, behindPoints_append_of_notMem hdot]
    exact (behindPoints_append_of_notMem (s := [Ascii.space]) (by decide) _).symm
  · -- a name start would have gone with the run
    by_contra hstart
    have hnot := List.head?_dropWhile_not p s
    rw [hd] at hnot
    have := hword d (Ascii.isWord_of_isNameStart (Bool.not_eq_false _ ▸ hstart))
    rw [hnot] at this
    cases this
  · rw [hsplit] at h
    exact h.tail.right_of_append

/-- **The names that are found** are those behind a point, behind a byte that is no part of a
word. -/
theorem bareNames_eq_behindPoints (ha : Ascii.isWord a = false)
    (h : (a :: s).IsChain ExponentBehind) : bareNames s = behindPoints (a :: s) := by
  -- the byte in front varies: behind a stride a blank will do, and elsewhere it is the last one
  fun_induction bareNames s generalizing a with
  | case1 => simp [behindPoints]
  | case2 c rest hstart found others hreserved =>
    -- no reserved word begins like an exponent
    obtain ⟨hopens, -⟩ := (List.isChain_cons_cons.1 h).1 hstart
    obtain ⟨cut, hcut⟩ := Text.exists_trim_cons
      (isSpace_of_isWord (Ascii.isWord_of_isNameStart hstart)) (rest.takeWhile continuesName)
    change isReserved (Text.trim _) = true at hreserved
    rw [hcut, not_isReserved_of_opensExponent hopens] at hreserved
    cases hreserved
  | case3 c rest hstart found others hreserved =>
    rename_i ih
    have hword := continuesName_of_isWord (Ascii.isWord_of_isNameStart hstart)
    obtain ⟨hopens, hbehind⟩ := (List.isChain_cons_cons.1 h).1 hstart
    -- a digit is part of a word, so it is a point that stands in front
    obtain rfl : a = Ascii.dot := by
      refine hbehind.resolve_left fun hdigit => ?_
      rw [Ascii.isWord_of_isDigit hdigit] at ha
      cases ha
    obtain ⟨hpassed, hrest⟩ := stride (fun _ hp => hp) (fun _ => continuesName_of_isWord) hword h
    rw [behindPoints, List.head?_cons, Option.any_some, hopens, Bool.and_true, beq_self_eq_true,
      if_pos rfl, List.takeWhile_cons_of_pos hword, hpassed]
    exact congrArg (found :: ·) (ih rfl hrest)
  | case4 c rest hstart hword ih =>
    -- a word that begins with a digit, whatever its letters
    obtain ⟨hpassed, hrest⟩ := stride (fun _ => continuesName_of_isWord) (fun _ hp => hp)
      (continuesName_of_isWord hword) h
    rw [behindPoints_cons_cons_of_not hstart, hpassed]
    exact ih rfl hrest
  | case5 c rest hstart hword ih =>
    rw [behindPoints_cons_cons_of_not hstart]
    exact ih (Bool.not_eq_true _ ▸ hword) h.tail

end Name

/-! ### Reading and searching the same text -/

/-- The pieces of a text without brackets hold the names and the tokens of the text. -/
theorem pieces_of_notMem (h : Ascii.leftBracket ∉ s) :
    (referencePieces .empty (segments s)).flatMap Piece.bareNames = Name.bareNames s ∧
      pieceTokens (referencePieces .empty (segments s)) = (lex s).toExcept := by
  -- without brackets there is one run of text, or none
  cases s with
  | nil =>
    rw [segments_nil, Name.bareNames_nil, lex_of_dropWhile_eq_nil rfl]
    exact ⟨rfl, rfl⟩
  | cons c s =>
    rw [referencePieces_of_notMem h (List.cons_ne_nil c s), List.flatMap_singleton, pieceTokens,
      Piece.bareNames, Piece.tokens]
    refine ⟨rfl, ?_⟩
    cases (lex (c :: s)).toExcept with
    | error cause => rfl
    | ok tokens => exact congrArg Except.ok (List.append_nil tokens)

/-- **Without brackets and readings**, a text is substituted as it is read, if no name is found in
it. -/
theorem substitute_empty_of_notMem (h : Ascii.leftBracket ∉ s) :
    substitute s .empty =
      if Name.bareNames s = [] then
        match (lex s).toExcept with
        | .ok tokens => .ok (tokens ++ [.stop])
        | .error cause => .error (.malformed cause)
      else .error (.unresolved (Name.bareNames s).eraseDups) := by
  -- nothing is looked up, so that only the two reasons to fail are left
  obtain ⟨hnames, htokens⟩ := pieces_of_notMem h
  have hclosed : (segments s).any Segment.isUnclosed = false := by
    rw [segments_of_notMem h]
    exact isUnclosed_map_byte s
  -- there are no readings to put in
  have hreplaced : replaceEntries .empty (referencePieces .empty (segments s))
      = referencePieces .empty (segments s) := rfl
  rw [substitute, hclosed, if_neg Bool.false_ne_true]
  dsimp only
  rw [hreplaced, hnames, htokens, missingReferences_of_notMem h, List.nil_append]
  cases hfound : Name.bareNames s with
  | nil => rfl
  | cons name others =>
    have hne : (name :: others).eraseDups.isEmpty = false := by
      rw [List.isEmpty_eq_false_iff_exists_mem]
      exact ⟨name, List.mem_eraseDups.2 List.mem_cons_self⟩
    rw [hne, if_neg Bool.false_ne_true, if_neg (List.cons_ne_nil name others)]

/-- **The variables of a text without brackets** are the names that are found in it. -/
theorem references_of_notMem (h : Ascii.leftBracket ∉ s) :
    references s = .ok (Name.bareNames s).eraseDups := by
  have hne : (Name.bareNames s).filter (· != []) = Name.bareNames s :=
    List.filter_eq_self.2 fun name hname =>
      bne_iff_ne.2 (Name.isBare_of_mem_bareNames hname).ne_nil
  have hnone : (s.map Segment.byte).filterMap Segment.name? = [] := by
    rw [List.filterMap_map]
    exact List.filterMap_eq_nil_iff.2 fun _ _ => rfl
  rw [references, segments_of_notMem h, isUnclosed_map_byte, if_neg Bool.false_ne_true]
  dsimp only
  rw [hnone, List.nil_append, outside_map_byte, Name.map_canonical_bareNames, hne]

/-- **A text that can be read** has for variables the names that stand behind a point, where an
exponent does. If there are none, it is substituted as it is read, and evaluates as its tokens do;
and otherwise it does not evaluate. -/
theorem substitute_of_lex (h : lex s = ⟨ts, none⟩) :
    references s = .ok (Name.behindPoints s).eraseDups ∧
    (Name.behindPoints s = [] →
      substitute s .empty = .ok (ts ++ [.stop]) ∧
      ∀ mode, evaluate s .empty mode =
        match evaluateTokens mode (ts ++ [.stop]) with
        | .error cause => .error (.malformed cause)
        | .ok x => outcomeOf s x) ∧
    (Name.behindPoints s ≠ [] →
      substitute s .empty = .error (.unresolved (Name.behindPoints s).eraseDups) ∧
      ∀ mode, evaluate s .empty mode
        = .error (.unresolved (Name.behindPoints s).eraseDups)) := by
  -- a text that reads has no bracket in it, and its names stand behind points
  have hbracket : Ascii.leftBracket ∉ s :=
    fun hmem => Bool.false_ne_true (isPlain_of_lex h _ hmem)
  have hnames : Name.bareNames s = Name.behindPoints s :=
    (Name.bareNames_eq_behindPoints rfl (isChain_of_lex h)).trans
      (Name.behindPoints_append_of_notMem (s := [Ascii.space]) (by decide) s)
  have hsubstitute := substitute_empty_of_notMem hbracket
  rw [hnames] at hsubstitute
  refine ⟨hnames ▸ references_of_notMem hbracket, fun hnone => ?_, fun hsome => ?_⟩
  · rw [if_pos hnone, h] at hsubstitute
    refine ⟨hsubstitute, fun mode => ?_⟩
    rw [evaluate, hsubstitute]
    rfl
  · rw [if_neg hsome] at hsubstitute
    refine ⟨hsubstitute, fun mode => ?_⟩
    rw [evaluate, hsubstitute]

/-- One number with a digit behind its point and without: the lexer reads both alike. -/
theorem substitute_of_lex_of_bare_point :
    lex (utf8 "2*1.0e5") = lex (utf8 "2*1.e5") ∧
      evaluate (utf8 "2*1.0e5") .empty .standard = .ok 200000.0 ∧
      references (utf8 "2*1.e5") = .ok [utf8 "e5"] ∧
      evaluate (utf8 "2*1.e5") .empty .standard = .error (.unresolved [utf8 "e5"]) := by
  have hdigit : lex (utf8 "2*1.0e5")
      = ⟨[.number 2.0, .operator .multiply, .number 100000.0], none⟩ := by decide +kernel
  have hbare : lex (utf8 "2*1.e5")
      = ⟨[.number 2.0, .operator .multiply, .number 100000.0], none⟩ := by decide +kernel
  obtain ⟨-, hvalue, -⟩ := substitute_of_lex hdigit
  obtain ⟨hreferences, -, hfailure⟩ := substitute_of_lex hbare
  refine ⟨hdigit.trans hbare.symm, ?_, hreferences.trans (by decide), ?_⟩
  · exact ((hvalue (by decide)).2 .standard).trans (by decide +kernel)
  · exact ((hfailure (by decide)).2 .standard).trans (by decide)

end AssayRules
