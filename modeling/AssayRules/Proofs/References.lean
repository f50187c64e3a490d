import AssayRules.Proofs.Lexing
import AssayRules.Proofs.Occurrences

/-!
# Where names occur in an expression

A search knows nothing of lexemes, and yet what it finds of a name that may be recorded is a
whole lexeme, as long as the name is not found inside a longer reference. That is the
content of this file (`Lexeme.spansFrom_texts`), and two facts carry it.

A bare name begins and ends with a word byte, so an occurrence cannot begin inside a
literal: the letter of an exponent has a digit before it. And it cannot run on behind a
reference, as the run ends there with nothing but blanks. So an occurrence lies inside one
reference by a bare name (`Lexeme.exists_bare_of_occursIn`), where its folded bytes are a
part of the folded name. A name that holds a comma occurs nowhere at all.
-/

namespace AssayRules

/-! ### Names that may be recorded -/

/-- **A spelling that substitution can rely on**: it is UTF-8, and it is bare, or else it has
a comma in it and so occurs in no expression outside brackets. -/
structure Name.IsRecordable (name : Text) : Prop where
  isUtf8 : name.IsUtf8
  form : Ascii.comma ∈ name ∨ Name.IsBare name

namespace Matching

variable {mode : Matching} {name u : Text}

/-- A part of a text with the key of a name has the folded bytes of the name. -/
theorem foldCase_of_key_eq (hname : name.IsUtf8) (hu : mode.Divides u)
    (h : mode.key u = mode.key name) : u.IsUtf8 ∧ u.foldCase = name.foldCase := by
  cases mode with
  | exact =>
    obtain rfl : u = name := h
    exact ⟨hname, rfl⟩
  | folded => exact ⟨hu, h⟩

theorem key_eq_of_foldCase_eq (h : mode.key u = mode.key name) :
    u.foldCase = name.foldCase := by
  cases mode with
  | exact =>
    obtain rfl : u = name := h
    rfl
  | folded => exact h

end Matching

namespace Text

variable {s t : Text}

/-- Letter case does not change what a bare text looks like. -/
theorem bytes_of_foldCase_eq (hs : s.IsUtf8) (ht : t.IsUtf8) (h : s.foldCase = t.foldCase)
    (hbare : Name.IsBare t) :
    s.head?.any Ascii.isNameStart = true ∧ (∀ c ∈ s, Name.continuesName c = true) ∧
      s.getLast?.any Ascii.isWord = true := by
  obtain ⟨hhead, hall, -, -⟩ := Name.isBare_iff.1 hbare
  -- each of the three is a property of bytes that folding keeps
  refine ⟨?_, ?_, ?_⟩
  · rw [← Caseless.isNameStart.any_head?_foldCase hs, h,
      Caseless.isNameStart.any_head?_foldCase ht]
    exact hhead
  · rw [← List.all_eq_true, ← Caseless.continuesName.all_foldCase hs, h,
      Caseless.continuesName.all_foldCase ht, List.all_eq_true]
    exact hall
  · rw [← Caseless.isWord.any_getLast?_foldCase hs, h, Caseless.isWord.any_getLast?_foldCase ht]
    exact hbare.isWord_getLast

/-- Letter case does not change whether there is a comma. -/
theorem comma_mem_of_foldCase_eq (hs : s.IsUtf8) (ht : t.IsUtf8) (h : s.foldCase = t.foldCase)
    (hcomma : Ascii.comma ∈ t) : Ascii.comma ∈ s := by
  -- no byte is folded to a comma, and a comma to no other byte
  by_contra hnot
  have hall : s.all (· != Ascii.comma) = true := by
    rw [List.all_eq_true]
    intro c hc
    exact bne_iff_ne.2 fun heq => hnot (heq ▸ hc)
  rw [← Caseless.ne_comma.all_foldCase hs, h, Caseless.ne_comma.all_foldCase ht,
    List.all_eq_true] at hall
  have := hall _ hcomma
  rw [bne_self_eq_false] at this
  cases this

/-- A text that agrees with a bare one up to letter case is bare itself, if it may be
recorded. -/
theorem isBare_of_foldCase_eq (hs : Name.IsRecordable s) (ht : t.IsUtf8)
    (h : s.foldCase = t.foldCase) (hbare : Name.IsBare t) : Name.IsBare s :=
  hs.form.resolve_left fun hcomma =>
    hbare.comma_notMem (comma_mem_of_foldCase_eq ht hs.isUtf8 h.symm hcomma)

end Text

namespace Lexeme

/-! ### Lexemes of a text that is UTF-8 -/

/-- **The lexemes of a text that is UTF-8 are so too**: on both sides of a lexeme that may
have bytes outside ASCII stands ASCII or nothing. -/
theorem isUtf8_text {behind : Bool} {ls : List Lexeme} (h : Spaced behind ls)
    (hutf8 : (texts ls).IsUtf8) : ∀ l ∈ ls, l.text.IsUtf8 := by
  -- what ends a word is ASCII, all the others being bytes of words
  have hascii : ∀ c : UInt8, endsWord c = true → c < 0x80 := by
    intro c hc
    rcases endsWord_cases hc with hc | rfl | rfl | rfl | rfl | rfl | rfl
    · simp only [Ascii.isSpace] at hc
      grind
    all_goals decide
  have hsingle : ∀ c : UInt8, endsWord c = true → Text.IsUtf8 [c] :=
    fun c hc => Text.isUtf8_singleton (hascii c hc)
  -- a blank or a symbol can be taken away from the front, and an operand comes apart behind
  induction h with
  | nil => simp
  | blank c hc _ ih =>
    have hc' := hsingle c (endsWord_of_isSpace hc)
    exact List.forall_mem_cons.2 ⟨hc', ih (hutf8.of_append_left hc')⟩
  | symbol c token hc _ ih =>
    have hc' := hsingle c (endsWord_of_ofByte? (Token.ofByte?_eq_some_iff.2 hc))
    exact List.forall_mem_cons.2 ⟨hc', ih (hutf8.of_append_left hc')⟩
  | operand hl h ih =>
    have hhead : ∀ c ∈ (texts _).head?, c < 0x80 := fun c hc =>
      hascii c (h.head_behind (fun _ _ => rfl) c hc)
    obtain ⟨hl', hrest⟩ := hutf8.of_append_ascii hhead
    exact List.forall_mem_cons.2 ⟨hl', ih hrest⟩

theorem isUtf8_texts {ls : List Lexeme} (h : ∀ l ∈ ls, l.text.IsUtf8) : (texts ls).IsUtf8 := by
  induction ls with
  | nil => exact Text.isUtf8_nil
  | cons l ls ih =>
    have hrest := ih fun m hm => h m (List.mem_cons_of_mem _ hm)
    exact (h l List.mem_cons_self).append hrest

theorem text_ne_nil (l : Lexeme) : l.text ≠ [] := by
  cases l with
  | numeral n =>
    obtain ⟨c, rest, htext, -⟩ := n.figure.exists_eq_cons
    rw [text, ← n.text_figure, htext]
    exact List.cons_ne_nil _ _
  | bare name hname => exact hname.ne_nil
  | bracketed inside _ => exact List.cons_ne_nil _ _
  | _ => exact List.cons_ne_nil _ _

end Lexeme

/-! ### Inside a literal -/

theorem isNameStart_of_isDigit {c : UInt8} (h : Ascii.isDigit c = true) :
    Ascii.isNameStart c = false := by
  simp only [Ascii.isDigit, Ascii.isNameStart, Ascii.isAlpha, Ascii.isUpper,
    Ascii.isLower] at h ⊢
  grind

theorem Exponent.eq_nil_of_isNameStart {e : Exponent} {a b : Text} {c : UInt8}
    (h : e.text = a ++ c :: b) (hc : Ascii.isNameStart c = true) : a = [] := by
  -- behind its first letter an exponent has a sign and digits
  cases a with
  | nil => rfl
  | cons d a =>
    have hmem : c ∈ e.sign?.toList ++ e.digits := by
      rw [(List.cons.inj h).2]
      exact List.mem_append_right _ List.mem_cons_self
    -- neither of these starts a name
    rcases List.mem_append.1 hmem with hmem | hmem
    · rcases e.isSign c (Option.mem_toList.1 hmem) with rfl | rfl <;> cases hc
    · rw [isNameStart_of_isDigit (e.allDigits c hmem)] at hc
      cases hc

namespace Numeral

variable {n : Numeral}

/-- What stands before the exponent. -/
def front (n : Numeral) : Text := n.whole ++ n.fraction?.elim [] fun part => Ascii.dot :: part

theorem text_eq_front_append (n : Numeral) :
    n.text = n.front ++ n.exponent?.elim [] Exponent.text := rfl

theorem isNameStart_of_mem_front {c : UInt8} (h : c ∈ n.front) : Ascii.isNameStart c = false := by
  rcases List.mem_append.1 h with h | h
  · exact isNameStart_of_isDigit (n.wholeDigits c h)
  · cases hcase : n.fraction? with
    | none =>
      rw [hcase] at h
      cases h
    | some part =>
      rw [hcase] at h
      rcases List.mem_cons.1 h with rfl | h
      · rfl
      · exact isNameStart_of_isDigit (n.fractionDigits part hcase c h)

/-- In front of an exponent stands a digit, as it never stands behind the point. -/
theorem isWord_getLast_front (h : n.exponent?.isSome = true) :
    n.front.getLast?.any Ascii.isWord = true := by
  -- a digit is part of a word, and the front ends with one
  have hlast : ∀ d : Text, d ≠ [] → (∀ x ∈ d, Ascii.isDigit x = true) →
      d.getLast?.any Ascii.isWord = true := by
    intro d hne hd
    rw [List.getLast?_eq_some_getLast hne, Option.any_some, Ascii.isWord,
      hd _ (List.getLast_mem hne), Bool.or_true]
  cases hcase : n.fraction? with
  | none =>
    have hne : n.whole ≠ [] := by simpa [hcase] using n.hasDigit
    rw [front, hcase, Option.elim_none, List.append_nil]
    exact hlast _ hne n.wholeDigits
  | some part =>
    have hne : part ≠ [] := fun hnil => n.pointBeforeDigit h (hnil ▸ hcase)
    have hcons : n.whole ++ Ascii.dot :: part = (n.whole ++ [Ascii.dot]) ++ part := by
      rw [List.append_assoc, List.singleton_append]
    rw [front, hcase, Option.elim_some, hcons, List.getLast?_append_of_ne_nil _ hne]
    exact hlast _ hne (n.fractionDigits part hcase)

/-- **A letter in a literal has a digit before it.** -/
theorem isWord_before {a b : Text} {c : UInt8} (h : n.text = a ++ c :: b)
    (hc : Ascii.isNameStart c = true) : a.getLast?.any Ascii.isWord = true := by
  -- the letter stands behind the front
  obtain ⟨middle, rfl, hmiddle⟩ : ∃ middle, a = n.front ++ middle ∧
      n.exponent?.elim [] Exponent.text = middle ++ c :: b := by
    rw [text_eq_front_append] at h
    rcases List.append_eq_append_iff.1 h with ⟨middle, ha, htail⟩ | ⟨middle, hfront, htail⟩
    · exact ⟨middle, ha, htail⟩
    · cases middle with
      | nil =>
        rw [List.append_nil] at hfront
        exact ⟨[], by rw [hfront, List.append_nil], htail.symm⟩
      | cons d middle =>
        obtain rfl : c = d := (List.cons.inj htail).1
        have := isNameStart_of_mem_front (hfront ▸ List.mem_append_right _ List.mem_cons_self)
        rw [hc] at this
        cases this
  -- so the letter is the first one of the exponent
  cases hexponent : n.exponent? with
  | none =>
    rw [hexponent] at hmiddle
    cases middle <;> cases hmiddle
  | some e =>
    rw [hexponent] at hmiddle
    obtain rfl := Exponent.eq_nil_of_isNameStart hmiddle hc
    rw [List.append_nil]
    exact isWord_getLast_front (by rw [hexponent]; rfl)

end Numeral

/-! ### Occurrences and lexemes -/

namespace Lexeme

variable {mode : Matching} {name : Text} {before : Option UInt8} {behind : Bool}

/-- Whether a lexeme is a reference to a name, as names are compared. -/
def refersTo (mode : Matching) (name : Text) : Lexeme → Bool
  | bare y _ => mode.key y == mode.key name
  | _ => false

theorem comma_notMem_texts {ls : List Lexeme}
    (h : ∀ l ∈ ls, ∀ inside hi, l ≠ .bracketed inside hi) : Ascii.comma ∉ texts ls := by
  intro hmem
  obtain ⟨l, hl, hmem⟩ := List.mem_flatMap.1 hmem
  cases isPlain_of_mem_text (h l hl) hmem

/-- A part of a reference that begins with a name start and ends with a word byte does not
run on behind the reference. -/
theorem exists_append_of_run {rest : List Lexeme} (hspaced : Spaced true rest) {b u t : Text}
    (hut : b ++ texts rest = u ++ t) (hall : ∀ c ∈ u, Name.continuesName c = true)
    (hlast : u.getLast?.any Ascii.isWord = true) : ∃ m, b = u ++ m := by
  -- the name goes beyond the operand, or ends within it
  rcases List.append_eq_append_iff.1 hut with ⟨m, hu, hrest⟩ | ⟨m, hb, -⟩
  · cases m with
    | nil => exact ⟨[], by rw [hu, List.append_nil, List.append_nil]⟩
    | cons c m =>
      -- what runs on is made of blanks, down to the last byte
      have hne : c :: m ≠ [] := List.cons_ne_nil _ _
      have hrun : ∀ d ∈ c :: m, d ∈ (texts rest).takeWhile Name.continuesName := by
        intro d hd
        rw [hrest, List.takeWhile_append_of_pos fun x hx => hall x
          (hu ▸ List.mem_append_right _ hx)]
        exact List.mem_append_left _ hd
      have hspace := hspaced.run_behind (fun _ _ => rfl) _ (hrun _ (List.getLast_mem hne))
      rw [hu, List.getLast?_append_of_ne_nil _ hne, List.getLast?_eq_some_getLast hne,
        Option.any_some] at hlast
      rw [Name.isSpace_of_isWord hlast] at hspace
      cases hspace
  · exact ⟨m, hb⟩

/-- A part of a name that has the folded bytes of another, and where it lies. -/
theorem infix_of_append {y a u m : Text} (hy : y.IsUtf8) (hu : u.IsUtf8) (hne : u ≠ [])
    (h : y = a ++ (u ++ m)) :
    u.foldCase <:+: y.foldCase ∧ (u.foldCase = y.foldCase → a = [] ∧ m = []) := by
  obtain ⟨ha, hm⟩ := (h ▸ hy).around hu hne
  have hfold : y.foldCase = a.foldCase ++ u.foldCase ++ m.foldCase := by
    rw [h, (hu.append hm).foldCase_append, hm.foldCase_append, List.append_assoc]
  refine ⟨⟨a.foldCase, m.foldCase, hfold.symm⟩, fun heq => ?_⟩
  have hlength := congrArg List.length (heq.trans hfold)
  rw [List.length_append, List.length_append] at hlength
  refine ⟨ha.foldCase_eq_nil_iff.1 (List.eq_nil_of_length_eq_zero ?_),
    hm.foldCase_eq_nil_iff.1 (List.eq_nil_of_length_eq_zero ?_)⟩ <;> omega

/-- **An occurrence lies inside a reference** by a bare name, and its folded bytes are a part
of the folded name of that. It is the whole reference if it is no proper part. -/
theorem exists_bare_of_occursIn (hname : Name.IsRecordable name) {l : Lexeme}
    {rest : List Lexeme} (hspaced : Spaced behind (l :: rest)) (hutf8 : l.text.IsUtf8)
    (hplain : ∀ m ∈ l :: rest, ∀ inside h, m ≠ .bracketed inside h)
    {a b u t : Text} (hab : l.text = a ++ b) (hne : b ≠ []) (hut : b ++ texts rest = u ++ t)
    (h : mode.OccursIn name (a.getLast?.or before) u t) :
    ∃ y hy, l = .bare y hy ∧ name.foldCase <:+: y.foldCase ∧
      (name.foldCase = y.foldCase → a = [] ∧ b = u) := by
  obtain ⟨hu, hfold⟩ := Matching.foldCase_of_key_eq hname.isUtf8 h.divides h.key_eq
  -- a name with a comma would show it in the text
  have hbare : Name.IsBare name := by
    refine hname.form.resolve_left fun hcomma => comma_notMem_texts hplain ?_
    rw [texts_cons, hab, List.append_assoc, hut]
    exact List.mem_append_right _ (List.mem_append_left _
      (Text.comma_mem_of_foldCase_eq hu hname.isUtf8 hfold hcomma))
  obtain ⟨hhead, hall, hlast⟩ := Text.bytes_of_foldCase_eq hu hname.isUtf8 hfold hbare
  -- the lexeme has the name start that the occurrence begins with
  obtain ⟨c, b', rfl⟩ := List.exists_cons_of_ne_nil hne
  have hc : Ascii.isNameStart c = true := by
    obtain ⟨d, u', rfl⟩ := List.exists_cons_of_ne_nil h.ne_nil
    rw [(List.cons.inj hut).1]
    exact hhead
  have hword := Ascii.isWord_of_isNameStart hc
  have hmem : c ∈ l.text := hab ▸ List.mem_append_right _ List.mem_cons_self
  -- by what the lexeme is, as only a reference may hold a name that stands alone
  cases l with
  | blank d hd =>
    obtain rfl := List.mem_singleton.1 hmem
    rw [Name.isSpace_of_isWord hword] at hd
    cases hd
  | symbol d token hd =>
    obtain rfl := List.mem_singleton.1 hmem
    rw [isWord_of_endsWord (endsWord_of_ofByte? (Token.ofByte?_eq_some_iff.2 hd))] at hword
    cases hword
  | numeral n =>
    -- the occurrence would begin at a letter with a digit before it, and not stand alone
    have hbefore : (a.getLast?.or before).any Ascii.isWord = true := by
      have hdigit := Numeral.isWord_before hab hc
      cases hlast : a.getLast? with
      | none =>
        rw [hlast] at hdigit
        cases hdigit
      | some d =>
        rw [hlast] at hdigit
        exact hdigit
    have halone := h.alone
    rw [standsAlone, hbare.isWord_head, hbefore] at halone
    cases halone
  | bare y hy =>
    refine ⟨y, hy, rfl, ?_⟩
    have hrest : Spaced true rest := by
      cases hspaced with
      | operand _ hrest => exact hrest
    -- the name ends within the reference, as only blanks follow that a name may go on with
    obtain ⟨m, hm⟩ := exists_append_of_run hrest hut hall hlast
    obtain ⟨hwithin, hwhole⟩ := infix_of_append hutf8 hu h.ne_nil (hm ▸ hab)
    rw [hfold] at hwithin hwhole
    refine ⟨hwithin, fun heq => ?_⟩
    obtain ⟨ha, rfl⟩ := hwhole heq
    exact ⟨ha, by rw [hm, List.append_nil]⟩
  | bracketed inside hi => exact absurd rfl (hplain _ List.mem_cons_self inside hi)

/-! ### The spans of an expression -/

/-- The spans of a lexeme: one that is found as a whole, or its glyphs. -/
def spans (mode : Matching) (name : Text) (l : Lexeme) : List Span :=
  if l.refersTo mode name then [.hit l.text]
  else (mode.glyphs l.text).map fun glyph => .plain glyph.text

/-- **The spans of lexemes**: the references to a name are found as a whole, and nothing else
is found, if the name is no proper part of a reference. -/
theorem spansFrom_texts (hname : Name.IsRecordable name) {ls : List Lexeme}
    (hspaced : Spaced behind ls) (hutf8 : ∀ l ∈ ls, l.text.IsUtf8)
    (hplain : ∀ l ∈ ls, ∀ inside h, l ≠ .bracketed inside h)
    (hwhole : ∀ y hy, .bare y hy ∈ ls → name.foldCase <:+: y.foldCase →
      name.foldCase = y.foldCase)
    (hbefore : behind = false → before.any Ascii.isWord = false) :
    mode.spansFrom name before (texts ls) = ls.flatMap (spans mode name) := by
  induction ls generalizing behind before with
  -- lexeme by lexeme, with whether an operand stands in front as the state
  | nil => exact Matching.spansFrom_nil mode name before
  | cons l rest ih =>
    have hl := hutf8 l List.mem_cons_self
    have hrest := fun m hm => hutf8 m (List.mem_cons_of_mem l hm)
    have htail : mode.Divides (texts rest) := .of_isUtf8 (isUtf8_texts hrest) mode
    -- what stands in front of the rest, and whether that is an operand
    have hih : mode.spansFrom name (l.text.getLast?.or before) (texts rest)
        = rest.flatMap (spans mode name) := by
      have hspaced' : ∃ behind', Spaced behind' rest ∧
          (behind' = false → (l.text.getLast?.or before).any Ascii.isWord = false) := by
        cases hspaced with
        | blank c hc h =>
          exact ⟨behind, h, fun _ => isWord_of_endsWord (endsWord_of_isSpace hc)⟩
        | symbol c token hc h =>
          have hends := endsWord_of_ofByte? (Token.ofByte?_eq_some_iff.2 hc)
          exact ⟨false, h, fun _ => isWord_of_endsWord hends⟩
        | operand _ h => exact ⟨true, h, fun h => by cases h⟩
      obtain ⟨behind', hspaced', hbefore'⟩ := hspaced'
      exact ih hspaced' hrest (fun m hm => hplain m (List.mem_cons_of_mem l hm))
        (fun y hy hmem => hwhole y hy (List.mem_cons_of_mem l hmem)) hbefore'
    rw [texts_cons, List.flatMap_cons, ← hih]
    -- a reference to the name is found as a whole, and nothing is found in any other lexeme
    by_cases hrefers : l.refersTo mode name = true
    · rw [spans, if_pos hrefers]
      cases l with
      | bare y hy =>
        -- in front stands no operand, and behind what ends a word, so it stands alone
        have hoperand : behind = false ∧ Spaced true rest := by
          cases hspaced with
          | operand _ h => exact ⟨rfl, h⟩
        have hbehind : (texts rest).head?.any Ascii.isWord = false :=
          any_isWord_of_endsWord (hoperand.2.head_behind fun _ _ => rfl)
        have hoccurs : mode.OccursIn name before y (texts rest) := by
          refine ⟨hy.ne_nil, .of_isUtf8 hl mode, htail, beq_iff_eq.1 hrefers, ?_⟩
          rw [standsAlone, hbefore hoperand.1, hbehind, Bool.and_false, Bool.and_false]
          rfl
        rw [text, hoccurs.spansFrom_append, Option.or_of_isSome (List.getLast?_isSome.2 hy.ne_nil)]
        rfl
      | _ => cases hrefers
    · rw [spans, if_neg hrefers]
      refine Matching.spansFrom_append_of_not_occursIn (.of_isUtf8 hl mode) htail ?_
      intro a b u t hab hne hut hoccurs
      obtain ⟨y, hy, rfl, hwithin, heq⟩ :=
        exists_bare_of_occursIn hname hspaced hl hplain hab hne hut hoccurs
      obtain ⟨rfl, rfl⟩ := heq (hwhole y hy List.mem_cons_self hwithin)
      -- an occurrence that is the whole reference would make it one to the name
      obtain rfl : y = b := hab
      exact hrefers (beq_iff_eq.2 hoccurs.key_eq)

end Lexeme

end AssayRules
