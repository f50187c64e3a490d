import AssayRules.Proofs.Checking
import AssayRules.Proofs.Cutting
import Mathlib.Data.List.DropRight

/-!
# Which texts are formulas

A text derives from the grammar of formulas if it is two expressions with a comparison
between them (`Compares`). Among legible texts these are the ones that are read as formulas,
and all that a formula holds can be read off the lexemes (`Formula.parse_iff_compares`).

A side is checked without the blanks at its ends, and the lexemes of what is left are those of
the side but for the blanks (`Lexeme.exists_trimmed`, `Lexeme.exists_padded`). So one side
passes what is asked of it exactly if it is an expression (`Lexeme.side_iff`), and it remains
to see that the text is cut between the two sides: there if it derives
(`Lexeme.cut_segments_comparison`), and somewhere at least if it does not, as cutting loses
nothing (`eq_of_cut_segments`).
-/

namespace AssayRules

theorem Derives.ne_nil {phrase : Phrase} {tokens : List Token} (h : Derives phrase tokens) :
    tokens ≠ [] := by
  induction h with
  | single _ ih => exact ih
  | _ => simp

namespace Lexeme

/-! ### Blanks at the ends -/

/-- Whether a lexeme is a blank. -/
def isBlank : Lexeme → Bool
  | blank _ _ => true
  | _ => false

variable {bs ls ms rs : List Lexeme} {bs' : List Lexeme}

theorem filterMap_of_isBlank {α : Type} {f : Lexeme → Option α}
    (hf : ∀ c hc, f (.blank c hc) = none) (h : ∀ l ∈ bs, l.isBlank = true) :
    bs.filterMap f = [] := by
  refine List.filterMap_eq_nil_iff.2 fun l hl => ?_
  have hblank := h l hl
  cases l with
  | blank c hc => exact hf c hc
  | _ => cases hblank

theorem isSpace_of_isBlank (h : ∀ l ∈ bs, l.isBlank = true) :
    ∀ c ∈ texts bs, Ascii.isSpace c = true := by
  intro c hc
  obtain ⟨l, hl, hc⟩ := List.mem_flatMap.1 hc
  have hblank := h l hl
  cases l with
  | blank d hd =>
    obtain rfl := List.mem_singleton.1 hc
    exact hd
  | _ => cases hblank

theorem exists_blanks {s : Text} (h : ∀ c ∈ s, Ascii.isSpace c = true) :
    ∃ bs, texts bs = s ∧ ∀ l ∈ bs, l.isBlank = true := by
  induction s with
  | nil => exact ⟨[], rfl, by simp⟩
  | cons c s ih =>
    obtain ⟨hc, hs⟩ := List.forall_mem_cons.1 h
    obtain ⟨bs, rfl, hbs⟩ := ih hs
    exact ⟨.blank c hc :: bs, rfl, List.forall_mem_cons.2 ⟨rfl, hbs⟩⟩

/-- **Blanks at the ends make no difference** to whether lexemes are an expression and what
they refer to. -/
theorem surround (hbs : ∀ l ∈ bs, l.isBlank = true) (hbs' : ∀ l ∈ bs', l.isBlank = true)
    (ms : List Lexeme) : (IsArithmetic (bs ++ ms ++ bs') ↔ IsArithmetic ms) ∧
      references (bs ++ ms ++ bs') = references ms := by
  -- nothing that is read off lexemes takes notice of a blank
  have hfilter : ∀ {α : Type} {f : Lexeme → Option α}, (∀ c hc, f (.blank c hc) = none) →
      (bs ++ ms ++ bs').filterMap f = ms.filterMap f := by
    intro α f hf
    rw [List.filterMap_append, List.filterMap_append, filterMap_of_isBlank hf hbs,
      filterMap_of_isBlank hf hbs', List.nil_append, List.append_nil]
  have htokens : ∀ value, tokens value (bs ++ ms ++ bs') = tokens value ms :=
    fun value => hfilter fun _ _ => rfl
  constructor
  · rw [isArithmetic_iff fun _ => 0, isArithmetic_iff fun _ => 0, htokens]
  · rw [references, references, hfilter fun _ _ => rfl, hfilter fun _ _ => rfl]

/-- Nothing but a blank begins or ends with one. -/
theorem isSpace_ends {l : Lexeme} (h : l.isBlank = false) :
    l.text.head?.any Ascii.isSpace = false ∧ l.text.getLast?.any Ascii.isSpace = false := by
  cases l with
  | blank => cases h
  | symbol c token hc =>
    exact Text.any_ends_of_forall_mem
      (List.forall_mem_singleton.2 (isSpace_of_ofByte? (Token.ofByte?_eq_some_iff.2 hc)))
  | numeral n => exact Text.any_ends_of_forall_mem fun _ => n.figure.isSpace_of_mem_text
  -- blanks may stand inside a reference, but not at its ends
  | bare name hname => exact ⟨hname.isSpace_head, (Name.isBare_iff.1 hname).2.2.1⟩
  | bracketed inside hi =>
    refine ⟨rfl, ?_⟩
    rw [text, Segment.text, List.getLast?_append]
    rfl

theorem head?_texts_cons (l : Lexeme) (ls : List Lexeme) :
    (texts (l :: ls)).head? = l.text.head? := by
  rw [texts_cons, List.head?_append_of_ne_nil _ l.text_ne_nil]

theorem getLast?_texts_concat (ls : List Lexeme) (l : Lexeme) :
    (texts (ls ++ [l])).getLast? = l.text.getLast? := by
  rw [texts_append, texts_cons, texts_nil, List.append_nil,
    List.getLast?_append_of_ne_nil _ l.text_ne_nil]

/-- The lexemes of a text without the blanks at its ends. -/
theorem exists_trimmed (ls : List Lexeme) : ∃ ms, texts ms = (texts ls).trim ∧
    (IsArithmetic ms ↔ IsArithmetic ls) ∧ references ms = references ls := by
  -- blank lexemes are taken off at both ends
  obtain ⟨rest, hrest⟩ : ∃ rest, rest = ls.dropWhile isBlank := ⟨_, rfl⟩
  obtain ⟨ms, hms⟩ : ∃ ms, ms = rest.rdropWhile isBlank := ⟨_, rfl⟩
  have hbefore : ∀ l ∈ ls.takeWhile isBlank, l.isBlank = true :=
    fun l hl => List.mem_takeWhile_imp hl
  have hbehind : ∀ l ∈ rest.rtakeWhile isBlank, l.isBlank = true :=
    fun l hl => List.mem_rtakeWhile_imp hl
  have hls : ls = ls.takeWhile isBlank ++ ms ++ rest.rtakeWhile isBlank := by
    rw [hms, List.append_assoc, List.rdropWhile_append_rtakeWhile, hrest,
      List.takeWhile_append_dropWhile]
  -- what is left has no blank at its ends, as its first and last lexemes are none
  have hhead : (texts ms).head?.any Ascii.isSpace = false := by
    cases hcons : ms with
    | nil => rfl
    | cons l ms' =>
      have hl : rest.head? = some l := by
        rw [← List.rdropWhile_append_rtakeWhile (p := isBlank) (l := rest), ← hms, hcons]
        rfl
      have hblank := List.head?_dropWhile_not isBlank ls
      rw [← hrest, hl] at hblank
      rw [head?_texts_cons]
      exact (isSpace_ends (by simpa using hblank)).1
  have hlast : (texts ms).getLast?.any Ascii.isSpace = false := by
    by_cases hne : ms = []
    · rw [hne]
      rfl
    · have hblank : ¬ (ms.getLast hne).isBlank = true := by
        subst hms
        exact List.rdropWhile_last_not isBlank rest hne
      rw [← List.dropLast_append_getLast hne, getLast?_texts_concat]
      exact (isSpace_ends (Bool.not_eq_true _ ▸ hblank)).2
  -- what was taken off are blanks, and what is left has none at its ends
  have htrim : (texts ls).trim = texts ms := by
    rw [hls, texts_append, texts_append, List.append_assoc,
      Text.trim_append_left (isSpace_of_isBlank hbefore),
      Text.trim_append_of_isSpace hhead hlast (isSpace_of_isBlank hbehind)]
  have hsurround := surround hbefore hbehind ms
  rw [← hls] at hsurround
  exact ⟨ms, htrim.symm, hsurround.1.symm, hsurround.2.symm⟩

/-- The lexemes of a text with blanks at its ends. -/
theorem exists_padded {s : Text} (h : texts ms = s.trim) : ∃ ls, texts ls = s ∧
    (IsArithmetic ls ↔ IsArithmetic ms) ∧ references ls = references ms := by
  obtain ⟨before, behind, hs, hbefore, hbehind⟩ := s.exists_trim
  obtain ⟨bs, rfl, hbs⟩ := exists_blanks hbefore
  obtain ⟨bs', rfl, hbs'⟩ := exists_blanks hbehind
  refine ⟨bs ++ ms ++ bs', ?_, surround hbs hbs' ms⟩
  rw [texts_append, texts_append, h, ← hs]

/-! ### One side -/

/-- No lexeme begins as a comparison does. -/
theorem opens_head_texts : ∀ c ∈ (texts ls).head?, Comparison.opens c = false := by
  -- no lexeme begins with the sign of a comparison
  intro c hc
  cases ls with
  | nil => cases hc
  | cons l ls =>
    rw [head?_texts_cons] at hc
    cases l with
    | bracketed inside hi =>
      cases hc
      rfl
    | _ =>
      refine Comparison.opens_of_isPlain (isPlain_of_mem_text ?_ (List.mem_of_head? hc))
      intro _ _ heq
      cases heq

/-- An expression is not blank. -/
theorem trim_texts_ne_nil (h : IsArithmetic ls) : (texts ls).trim ≠ [] := by
  obtain ⟨ms, hms, hiff, -⟩ := exists_trimmed ls
  rw [← hms]
  intro hnil
  cases ms with
  | nil => exact (hiff.2 h fun _ => 0).ne_nil rfl
  | cons l ms => exact l.text_ne_nil (List.append_eq_nil_iff.1 hnil).1

/-- **What is asked of a side** is that it is an expression, and what it is found to refer to
is what its lexemes refer to. -/
theorem side_iff {s : Text} (h : s.IsLegible) {names : List Text} :
    (AssayRules.references s.trim = .ok names ∧ checkArithmetic s.trim names = .ok ()) ↔
      ∃ ls, texts ls = s ∧ IsArithmetic ls ∧ references ls = names := by
  constructor
  · -- the lexemes of the trimmed side, with the blanks put back
    rintro ⟨hnames, hcheck⟩
    have htrim := h.trim (closed_of_references_eq_ok hnames)
    obtain ⟨ms, hms, harithmetic⟩ := (checkArithmetic_iff htrim hnames).1 hcheck
    have hreferences := references_of_isLegible harithmetic (hms ▸ htrim)
    rw [hms, hnames] at hreferences
    obtain ⟨ls, hls, hiff, heq⟩ := exists_padded hms
    exact ⟨ls, hls, hiff.2 harithmetic, heq.trans (Except.ok.inj hreferences).symm⟩
  · -- the blanks are taken off, which changes neither the names nor what is said of them
    rintro ⟨ls, rfl, hls, rfl⟩
    obtain ⟨ms, hms, hiff, heq⟩ := exists_trimmed ls
    have hclosed := isUnclosed_segments_texts ms
    rw [hms] at hclosed
    have htrim := h.trim hclosed
    have hreferences := references_of_isLegible (hiff.2 hls) (hms ▸ htrim)
    rw [hms, heq] at hreferences
    exact ⟨hreferences, (checkArithmetic_iff htrim hreferences).2 ⟨ms, hms, hiff.2 hls⟩⟩

end Lexeme

/-! ### Formulas -/

/-- **A text that derives from the grammar of formulas**: two expressions with a comparison
between them. -/
structure Compares (s : Text) (ls : List Lexeme) (comparison : Comparison) (rs : List Lexeme) :
    Prop where
  left : Lexeme.IsArithmetic ls
  right : Lexeme.IsArithmetic rs
  text_eq : s = Lexeme.texts ls ++ comparison.text ++ Lexeme.texts rs

namespace Formula

/-- The formula that lexemes with a comparison between them write. -/
def ofLexemes (ls : List Lexeme) (comparison : Comparison) (rs : List Lexeme) : Formula where
  left := (Lexeme.texts ls).trim
  comparison := comparison
  right := (Lexeme.texts rs).trim
  leftVariables := Lexeme.references ls
  rightVariables := Lexeme.references rs

/-- What is asked of two sides, in no particular order. -/
theorem ofSides_eq_ok_iff {left right : Text} {comparison : Comparison} {formula : Formula} :
    ofSides left comparison right = .ok formula ↔ ∃ leftVariables rightVariables,
      (references left = .ok leftVariables ∧ checkArithmetic left leftVariables = .ok ()) ∧
      (references right = .ok rightVariables ∧ checkArithmetic right rightVariables = .ok ()) ∧
      formula = ⟨left, comparison, right, leftVariables, rightVariables⟩ := by
  rw [ofSides]
  constructor
  · -- names are asked for on both sides before the arithmetic of either is checked
    intro h
    obtain ⟨leftVariables, hleft, h⟩ := bind_eq_ok_iff.1 h
    obtain ⟨rightVariables, hright, h⟩ := bind_eq_ok_iff.1 h
    obtain ⟨_, hleft', h⟩ := bind_eq_ok_iff.1 h
    obtain ⟨_, hright', h⟩ := bind_eq_ok_iff.1 h
    exact ⟨leftVariables, rightVariables, ⟨hleft, hleft'⟩, ⟨hright, hright'⟩,
      (Except.ok.inj h).symm⟩
  · rintro ⟨leftVariables, rightVariables, ⟨hleft, hleft'⟩, ⟨hright, hright'⟩, rfl⟩
    refine bind_eq_ok_iff.2 ⟨_, hleft, bind_eq_ok_iff.2 ⟨_, hright, ?_⟩⟩
    exact bind_eq_ok_iff.2 ⟨_, hleft', bind_eq_ok_iff.2 ⟨_, hright', rfl⟩⟩

/-- **What is asked of a text**: one comparison, outside all parentheses, with something on
either side that makes a formula. -/
theorem parse_eq_ok_iff {s : Text} {formula : Formula} :
    parse s = .ok formula ↔ ∃ front comparison behind,
      cut (segments s) 0 = .ok ⟨front, [⟨comparison, 0, behind⟩]⟩ ∧ front.trim ≠ [] ∧
        behind.trim ≠ [] ∧ ofSides front.trim comparison behind.trim = .ok formula := by
  rw [parse]
  constructor
  · -- of the links only one is allowed, outside all parentheses, and with something on both sides
    intro h
    obtain ⟨⟨front, links⟩, hcut, h⟩ := bind_eq_ok_iff.1 h
    rcases links with _ | ⟨⟨comparison, depth, behind⟩, _ | ⟨other, links⟩⟩
    · cases h
    · dsimp only at h
      split_ifs at h with hdepth hempty
      obtain rfl : depth = 0 := not_not.1 hdepth
      rw [Bool.or_eq_true, not_or, List.isEmpty_iff, List.isEmpty_iff] at hempty
      exact ⟨front, comparison, behind, hcut, hempty.1, hempty.2, h⟩
    · cases h
  · rintro ⟨front, comparison, behind, hcut, hfront, hbehind, hsides⟩
    refine bind_eq_ok_iff.2 ⟨_, hcut, ?_⟩
    dsimp only
    rw [if_neg (by simp), if_neg (by simp [hfront, hbehind]), hsides]

/-- **Both sides of a formula** are arithmetic over their own variables. -/
theorem checked_of_parse {s : Text} {formula : Formula} (h : parse s = .ok formula) :
    (references formula.left = .ok formula.leftVariables ∧
        checkArithmetic formula.left formula.leftVariables = .ok ()) ∧
      references formula.right = .ok formula.rightVariables ∧
        checkArithmetic formula.right formula.rightVariables = .ok () := by
  obtain ⟨_, _, _, -, -, -, hsides⟩ := parse_eq_ok_iff.1 h
  obtain ⟨_, _, hleft, hright, rfl⟩ := ofSides_eq_ok_iff.1 hsides
  exact ⟨hleft, hright⟩

theorem mem_variableNames {formula : Formula} {name : Text} :
    name ∈ formula.variableNames ↔
      name ∈ formula.leftVariables ∨ name ∈ formula.rightVariables := by
  rw [variableNames, List.mem_append, List.mem_filter]
  by_cases hmem : name ∈ formula.leftVariables
  · exact iff_of_true (Or.inl hmem) (Or.inl hmem)
  · exact or_congr_right (and_iff_left (by simpa using hmem))

/-- **What is read as a formula derives**, and the formula is what the lexemes write. -/
theorem exists_compares_of_parse {s : Text} (h : s.IsLegible) {formula : Formula}
    (hparse : parse s = .ok formula) : ∃ ls comparison rs, Compares s ls comparison rs ∧
      formula = ofLexemes ls comparison rs := by
  obtain ⟨front, comparison, behind, hcut, -, -, hsides⟩ := parse_eq_ok_iff.1 hparse
  obtain ⟨leftVariables, rightVariables, hleft, hright, rfl⟩ := ofSides_eq_ok_iff.1 hsides
  obtain rfl := eq_of_cut_segments hcut
  -- brackets close on both sides, as they do in what is left of the sides
  obtain ⟨hfront, hbehind⟩ := h.sides
    (closed_of_closed_trim (closed_of_references_eq_ok hleft.1))
    (closed_of_closed_trim (closed_of_references_eq_ok hright.1))
  obtain ⟨ls, rfl, hls, rfl⟩ := (Lexeme.side_iff hfront).1 hleft
  obtain ⟨rs, rfl, hrs, rfl⟩ := (Lexeme.side_iff hbehind).1 hright
  exact ⟨ls, comparison, rs, ⟨hls, hrs, rfl⟩, rfl⟩

/-- **What derives is read as the formula** that the lexemes write. -/
theorem parse_of_compares {s : Text} (h : s.IsLegible) {ls rs : List Lexeme}
    {comparison : Comparison} (hs : Compares s ls comparison rs) :
    parse s = .ok (ofLexemes ls comparison rs) := by
  obtain ⟨hls, hrs, rfl⟩ := hs
  obtain ⟨hfront, hbehind⟩ := h.sides (Lexeme.isUnclosed_segments_texts ls)
    (Lexeme.isUnclosed_segments_texts rs)
  have hleft := (Lexeme.side_iff hfront).2 ⟨ls, rfl, hls, rfl⟩
  have hright := (Lexeme.side_iff hbehind).2 ⟨rs, rfl, hrs, rfl⟩
  exact parse_eq_ok_iff.2 ⟨_, comparison, _, Lexeme.cut_segments_comparison hls comparison,
    Lexeme.trim_texts_ne_nil hls, Lexeme.trim_texts_ne_nil hrs,
    ofSides_eq_ok_iff.2 ⟨_, _, hleft, hright, rfl⟩⟩

/-- **The texts that are read as formulas** are, among legible texts, the ones that derive
from the grammar, and no text derives in two ways that differ in the formula. The comparison
is the longest that stands where it is cut, and every other legible text is malformed. -/
theorem parse_iff_compares {s : Text} (h : s.IsLegible) :
    (∀ formula, parse s = .ok formula ↔
        ∃ ls comparison rs, Compares s ls comparison rs ∧ formula = ofLexemes ls comparison rs) ∧
      (∀ ls comparison rs, Compares s ls comparison rs →
        (∀ other : Comparison, other.text <+: comparison.text ++ Lexeme.texts rs →
          other.text.length ≤ comparison.text.length) ∧
        (ofLexemes ls comparison rs).variableNames = Lexeme.references ls
          ++ (Lexeme.references rs).filter fun name => name ∉ Lexeme.references ls) ∧
      ((¬ ∃ ls comparison rs, Compares s ls comparison rs) →
        ∃ cause, parse s = .error cause) := by
  have hiff : ∀ formula, parse s = .ok formula ↔
      ∃ ls comparison rs, Compares s ls comparison rs ∧
        formula = ofLexemes ls comparison rs := by
    intro formula
    refine ⟨exists_compares_of_parse h, ?_⟩
    rintro ⟨ls, comparison, rs, hs, rfl⟩
    exact parse_of_compares h hs
  -- which formulas, then what the comparison and the names are, and last that nothing else is
  -- accepted
  refine ⟨hiff, fun ls comparison rs hs => ⟨fun other hother => ?_, ?_⟩, fun hnone => ?_⟩
  · -- anything longer would go on with a byte that no expression begins with
    by_contra hlt
    obtain ⟨tail, htail⟩ := List.prefix_of_prefix_length_le (List.prefix_append _ _) hother
      (Nat.le_of_not_le hlt)
    cases tail with
    | nil =>
      rw [← htail, List.append_nil] at hlt
      exact hlt (Nat.le_refl _)
    | cons c tail =>
      have hopens : Comparison.opens c = true := Comparison.opens_of_mem_text
        (htail ▸ List.mem_append_right _ List.mem_cons_self)
      rw [← htail, List.prefix_append_right_inj] at hother
      obtain ⟨rest, hrest⟩ := hother
      have hhead : c ∈ (Lexeme.texts rs).head? := by
        rw [← hrest]
        rfl
      rw [Lexeme.opens_head_texts c hhead] at hopens
      cases hopens
  · simp [variableNames, ofLexemes]
  · cases hparse : parse s with
    | error cause => exact ⟨cause, rfl⟩
    | ok formula =>
      obtain ⟨ls, comparison, rs, hs, -⟩ := (hiff formula).1 hparse
      exact absurd ⟨ls, comparison, rs, hs⟩ hnone

/-- A comparison of two bytes, between sides that refer to what they do in either way. -/
theorem parse_iff_compares_of_two_references :
    parse (utf8 "2*[Fe] >= Mn+1") = .ok
      ⟨utf8 "2*[Fe]", .atLeast, utf8 "Mn+1", [utf8 "Fe"], [utf8 "Mn"]⟩ := by
  have hlegible : (utf8 "2*[Fe] >= Mn+1").IsLegible := by
    have hsegments : segments (utf8 "2*[Fe] >= Mn+1") = (utf8 "2*").map .byte
        ++ .reference (utf8 "Fe") :: (utf8 " >= Mn+1").map .byte := by decide +kernel
    have hreferences : references (utf8 "2*[Fe] >= Mn+1") = .ok [utf8 "Fe", utf8 "Mn"] := by
      decide +kernel
    refine ⟨by decide +kernel, fun inside hmem => ?_, fun names hnames => ?_⟩
    · obtain rfl : inside = utf8 "Fe" := by
        rw [hsegments] at hmem
        simpa using hmem
      decide +kernel
    · obtain rfl := Except.ok.inj (hreferences.symm.trans hnames)
      decide
  let two : Numeral := .ofDigits (utf8 "2") (by decide) rfl
  let one : Numeral := .ofDigits (utf8 "1") (by decide) rfl
  let ls : List Lexeme := [.numeral two _ two.figure.roundsTo_toFloat,
    .symbol Ascii.star (.operator .multiply) (by decide), .bracketed (utf8 "Fe") (by decide),
    .blank Ascii.space rfl]
  let rs : List Lexeme := [.blank Ascii.space rfl, .bare (utf8 "Mn") (by decide +kernel),
    .symbol Ascii.plus (.operator .add) (by decide), .numeral one _ one.figure.roundsTo_toFloat]
  have hls : Lexeme.IsArithmetic ls := fun value => .chain (.single (.number _)) (.number _)
  have hrs : Lexeme.IsArithmetic rs := fun value => .chain (.single (.number _)) (.number _)
  exact ((parse_iff_compares hlegible).1 _).2 ⟨ls, .atLeast, rs, ⟨hls, hrs, rfl⟩, rfl⟩

end Formula

end AssayRules
