import AssayRules.Proofs.Glyphs

/-!
# What a search finds

A search goes over the glyphs of a text. This file turns what it does into statements about
the text, so that what is said of texts that are UTF-8 need not look at glyphs.

Not every text has the glyphs one would expect of it: up to letter case, glyphs are
characters, and a text has to be UTF-8 to be made of them. `Matching.Divides` says for either
way of matching which texts do, and `Matching.Divides.induction` takes off one glyph at a
time. On such texts an occurrence at the front is a part of the text with the key of the name
that stands alone (`Matching.OccursIn`), and the spans of a text are found by taking off such
a part (`Matching.OccursIn.spansFrom_append`), or anything in which no occurrence begins
(`Matching.spansFrom_append_of_not_occursIn`).

So every hit is an occurrence at its place (`Matching.Divides.occursIn_of_spansFrom`), and
every occurrence meets a hit (`Matching.Divides.exists_hit_of_occursIn`), though not always as
a whole, as an earlier hit may reach into it.
-/

namespace AssayRules

namespace Matching

/-! ### Texts that are made of glyphs -/

/-- **A text is made of glyphs**, as any is byte by byte, and as those that are UTF-8 are
up to letter case. -/
def Divides : Matching → Text → Prop
  | exact, _ => True
  | folded, s => s.IsUtf8

theorem Divides.of_isUtf8 {s : Text} (h : s.IsUtf8) (mode : Matching) : mode.Divides s := by
  cases mode with
  | exact => trivial
  | folded => exact h

variable {mode : Matching} {s t u name : Text}

theorem Divides.nil (mode : Matching) : mode.Divides [] := .of_isUtf8 Text.isUtf8_nil mode

theorem Divides.append (hs : mode.Divides s) (ht : mode.Divides t) : mode.Divides (s ++ t) := by
  cases mode with
  | exact => trivial
  | folded => exact Text.IsUtf8.append hs ht

theorem key_nil (mode : Matching) : mode.key [] = [] := by
  cases mode <;> rfl

theorem Divides.key_append (ht : mode.Divides t) (s : Text) :
    mode.key (s ++ t) = mode.key s ++ mode.key t := by
  cases mode with
  | exact => rfl
  | folded => exact Text.IsUtf8.foldCase_append ht s

theorem Divides.glyphs_append (hs : mode.Divides s) (t : Text) :
    mode.glyphs (s ++ t) = mode.glyphs s ++ mode.glyphs t := by
  cases mode with
  | exact => exact List.map_append
  | folded => rw [glyphs, Text.IsUtf8.characters_append hs, List.map_append, glyphs, glyphs]

theorem glyphs_nil (mode : Matching) : mode.glyphs [] = [] := by
  cases mode with
  | exact => rfl
  | folded => rw [glyphs, Text.characters_nil, List.map_nil]

/-- **A text of one glyph.** -/
structure IsGlyph (mode : Matching) (u : Text) : Prop where
  ne_nil : u ≠ []
  divides : mode.Divides u
  glyphs_eq : mode.glyphs u = [⟨u, mode.key u⟩]

/-- **Induction on glyphs.** -/
@[elab_as_elim]
theorem Divides.induction {motive : (s : Text) → mode.Divides s → Prop}
    (nil : motive [] (.nil mode))
    (append : ∀ u t (hu : mode.IsGlyph u) (ht : mode.Divides t), motive t ht →
      motive (u ++ t) (hu.divides.append ht)) {s : Text} (hs : mode.Divides s) :
    motive s hs := by
  -- by the mode, as the one has bytes for its glyphs and the other characters
  cases mode with
  | exact =>
    -- a glyph is a byte here, and a character up to letter case
    induction s with
    | nil => exact nil
    | cons c rest ih =>
      exact append [c] rest ⟨List.cons_ne_nil _ _, trivial, rfl⟩ trivial (ih trivial)
  | folded =>
    refine Text.IsUtf8.induction (motive := fun s hs => motive s hs) nil ?_ hs
    intro ch t hch hutf8 ht ih
    refine append ch t ⟨hch.ne_nil, hutf8, ?_⟩ ht ih
    have hcut := Text.characters_append_of_isCharacter hch []
    rw [List.append_nil, Text.characters_nil] at hcut
    rw [glyphs, hcut]
    rfl

theorem glyphs_ne_nil (mode : Matching) (hne : s ≠ []) : mode.glyphs s ≠ [] := by
  intro hnil
  have htext := flatMap_text_glyphs mode s
  rw [hnil] at htext
  exact hne htext.symm

/-- A row of glyphs at the front of a text is made from the part of the text that it has. -/
theorem Divides.exists_of_glyphs_eq (hs : mode.Divides s) {front behind : List Glyph}
    (h : mode.glyphs s = front ++ behind) :
    ∃ u t, s = u ++ t ∧ front = mode.glyphs u ∧ behind = mode.glyphs t ∧
      mode.Divides u ∧ mode.Divides t := by
  -- glyph by glyph, each taken off the front as long as there is one
  induction hs using Divides.induction generalizing front with
  | nil =>
    rw [glyphs_nil] at h
    obtain ⟨rfl, rfl⟩ := List.append_eq_nil_iff.1 h.symm
    exact ⟨[], [], rfl, (glyphs_nil mode).symm, (glyphs_nil mode).symm, .nil mode, .nil mode⟩
  | append v t hv ht ih =>
    cases front with
    | nil =>
      exact ⟨[], v ++ t, rfl, (glyphs_nil mode).symm, h.symm, .nil mode, hv.divides.append ht⟩
    | cons glyph front =>
      rw [hv.divides.glyphs_append, hv.glyphs_eq, List.singleton_append] at h
      obtain ⟨rfl, hrest⟩ := List.cons.inj h
      obtain ⟨u, t', rfl, rfl, rfl, hu, ht'⟩ := ih hrest
      refine ⟨v ++ u, t', (List.append_assoc _ _ _).symm, ?_, rfl, hv.divides.append hu, ht'⟩
      rw [hv.divides.glyphs_append, hv.glyphs_eq, List.singleton_append]

/-- **The keys of the glyphs make up the key** of a text that is made of them. -/
theorem Divides.flatMap_key_glyphs (hs : mode.Divides s) :
    (mode.glyphs s).flatMap Glyph.key = mode.key s := by
  induction hs using Divides.induction with
  | nil => rw [glyphs_nil, key_nil]; rfl
  | append u t hu ht ih =>
    rw [hu.divides.glyphs_append, hu.glyphs_eq, List.singleton_append, List.flatMap_cons, ih,
      ht.key_append]

theorem Divides.of_append {a m w : Text} (ham : mode.Divides (a ++ m)) (hmw : mode.Divides (m ++ w))
    (hne : m ≠ []) : mode.Divides a ∧ mode.Divides m := by
  cases mode with
  | exact => exact ⟨trivial, trivial⟩
  | folded =>
    refine Text.IsUtf8.of_append ham ?_
    have hhead := Text.IsUtf8.head hmw
    rwa [List.head?_append_of_ne_nil _ hne] at hhead

/-- A glyph at the front of a text that is cut behind it, is not divided by the cut. -/
theorem IsGlyph.exists_eq_append {v w a b : Text} (hv : mode.IsGlyph v) (hb : mode.Divides b)
    (h : v ++ w = a ++ b) (hne : a ≠ []) : ∃ a', a = v ++ a' ∧ w = a' ++ b := by
  -- the cut lies behind the glyph, or within it
  rcases List.append_eq_append_iff.1 h with ⟨a', ha, hw⟩ | ⟨m, hv', rfl⟩
  · exact ⟨a', ha, hw⟩
  · by_cases hnil : m = []
    · subst hnil
      exact ⟨[], by rw [hv', List.append_nil, List.append_nil], rfl⟩
    · -- a glyph in two parts would be two glyphs
      exfalso
      subst hv'
      obtain ⟨ha, -⟩ := hv.divides.of_append hb hnil
      have hlength := congrArg List.length hv.glyphs_eq
      have hfront := List.length_pos_iff.2 (glyphs_ne_nil mode hne)
      have hbehind := List.length_pos_iff.2 (glyphs_ne_nil mode hnil)
      rw [ha.glyphs_append, List.length_append, List.length_singleton] at hlength
      omega

/-! ### Occurrences at the front -/

/-- **An occurrence of a name at the front of a text**, behind the byte `before`. -/
structure OccursIn (mode : Matching) (name : Text) (before : Option UInt8) (u t : Text) :
    Prop where
  ne_nil : u ≠ []
  divides : mode.Divides u
  divides_behind : mode.Divides t
  key_eq : mode.key u = mode.key name
  alone : standsAlone name before t.head? = true

theorem OccursIn.front?_eq {before : Option UInt8} (h : mode.OccursIn name before u t) :
    Target.front? ⟨name, mode.key name⟩ before (mode.glyphs (u ++ t))
      = some (mode.glyphs u, mode.glyphs t) := by
  refine (Target.front?_eq_some_iff (isSolid_of_mem_glyphs mode (u ++ t))).2
    ⟨glyphs_ne_nil mode h.ne_nil, h.divides.glyphs_append t, ?_, ?_⟩
  · rw [h.divides.flatMap_key_glyphs, h.key_eq]
  · rw [flatMap_text_glyphs]
    exact h.alone

theorem Divides.exists_of_front? (hs : mode.Divides s) {before : Option UInt8}
    {used after : List Glyph}
    (h : Target.front? ⟨name, mode.key name⟩ before (mode.glyphs s) = some (used, after)) :
    ∃ u t, s = u ++ t ∧ used = mode.glyphs u ∧ after = mode.glyphs t ∧
      mode.OccursIn name before u t := by
  -- what the code finds in glyphs is taken over to the texts that these are cut from
  obtain ⟨hne, happend, hkey, halone⟩ :=
    (Target.front?_eq_some_iff (isSolid_of_mem_glyphs mode s)).1 h
  obtain ⟨u, t, rfl, rfl, rfl, hu, ht⟩ := hs.exists_of_glyphs_eq happend
  refine ⟨u, t, rfl, rfl, rfl, ?_, hu, ht, hu.flatMap_key_glyphs.symm.trans hkey, ?_⟩
  · rintro rfl
    exact hne (glyphs_nil mode)
  · rwa [flatMap_text_glyphs] at halone

/-! ### Spans -/

/-- The spans of a text that stands behind the byte `before`. -/
def spansFrom (mode : Matching) (name : Text) (before : Option UInt8) (s : Text) : List Span :=
  Target.spans ⟨name, mode.key name⟩ before (mode.glyphs s)

theorem spans_eq_spansFrom (mode : Matching) (name s : Text) :
    mode.spans name s = mode.spansFrom name none s := rfl

theorem spansFrom_nil (mode : Matching) (name : Text) (before : Option UInt8) :
    mode.spansFrom name before [] = [] := by
  rw [spansFrom, glyphs_nil, Target.spans_nil]

/-- **An occurrence is taken off as a whole.** -/
theorem OccursIn.spansFrom_append {before : Option UInt8} (h : mode.OccursIn name before u t) :
    mode.spansFrom name before (u ++ t) = .hit u :: mode.spansFrom name u.getLast? t := by
  rw [spansFrom, Target.spans_eq_cons_hit h.front?_eq, flatMap_text_glyphs]
  rfl

theorem spansFrom_glyph_append {before : Option UInt8} (hu : mode.IsGlyph u)
    (ht : mode.Divides t)
    (h : ∀ v w, u ++ t = v ++ w → ¬ mode.OccursIn name before v w) :
    mode.spansFrom name before (u ++ t) = .plain u :: mode.spansFrom name u.getLast? t := by
  -- an occurrence in front would be found there
  have hfront : Target.front? ⟨name, mode.key name⟩ before (mode.glyphs (u ++ t)) = none := by
    by_contra hsome
    obtain ⟨⟨used, after⟩, hfront⟩ := Option.ne_none_iff_exists'.1 hsome
    obtain ⟨v, w, hvw, -, -, hoccurs⟩ := (hu.divides.append ht).exists_of_front? hfront
    exact h v w hvw hoccurs
  rw [hu.divides.glyphs_append, hu.glyphs_eq, List.singleton_append] at hfront
  rw [spansFrom, hu.divides.glyphs_append, hu.glyphs_eq, List.singleton_append,
    Target.spans_eq_cons_plain hfront]
  rfl

/-- **Text in which no occurrence begins** is taken off as plain. -/
theorem spansFrom_append_of_not_occursIn {before : Option UInt8} (hs : mode.Divides s)
    (ht : mode.Divides t)
    (h : ∀ a b v w, s = a ++ b → b ≠ [] → b ++ t = v ++ w →
      ¬ mode.OccursIn name (a.getLast?.or before) v w) :
    mode.spansFrom name before (s ++ t)
      = (mode.glyphs s).map (fun glyph => .plain glyph.text)
        ++ mode.spansFrom name (s.getLast?.or before) t := by
  -- glyph by glyph, where no occurrence begins
  induction hs using Divides.induction generalizing before with
  | nil =>
    rw [glyphs_nil]
    rfl
  | append u r hu hr ih =>
    have hfirst : ∀ v w, u ++ (r ++ t) = v ++ w → ¬ mode.OccursIn name before v w := by
      intro v w hvw
      refine h [] (u ++ r) v w rfl ?_ (by rwa [List.append_assoc])
      exact fun hnil => hu.ne_nil (List.append_eq_nil_iff.1 hnil).1
    rw [List.append_assoc, spansFrom_glyph_append hu (hr.append ht) hfirst, ih,
      Text.getLast?_append_or hu.ne_nil,
      hu.divides.glyphs_append, hu.glyphs_eq]
    · rfl
    · -- what stands before a later place is the rest of this glyph, or what stood before it
      intro a b v w hab hne hvw
      rw [← Text.getLast?_append_or hu.ne_nil]
      exact h (u ++ a) b v w (by rw [hab, List.append_assoc]) hne hvw

/-! ### All hits, and all occurrences -/

/-- **Induction on spans**: at each place either an occurrence is taken off, or a glyph at
which none begins. -/
@[elab_as_elim]
theorem Divides.spans_induction (name : Text)
    {motive : (s : Text) → Option UInt8 → mode.Divides s → Prop}
    (nil : ∀ before, motive [] before (.nil mode))
    (hit : ∀ before v w (hv : mode.OccursIn name before v w),
      motive w v.getLast? hv.divides_behind →
        motive (v ++ w) before (hv.divides.append hv.divides_behind))
    (plain : ∀ before v w (hv : mode.IsGlyph v) (hw : mode.Divides w),
      (∀ v' w', v ++ w = v' ++ w' → ¬ mode.OccursIn name before v' w') →
        motive w v.getLast? hw → motive (v ++ w) before (hv.divides.append hw))
    {s : Text} (before : Option UInt8) (hs : mode.Divides s) : motive s before hs := by
  -- on length: an occurrence takes off as many glyphs as it has, anything else one
  induction hn : s.length using Nat.strongRecOn generalizing s before with
  | ind n ih =>
    subst hn
    by_cases hocc : ∃ v w, s = v ++ w ∧ mode.OccursIn name before v w
    · obtain ⟨v, w, rfl, hv⟩ := hocc
      have hpos := List.length_pos_iff.2 hv.ne_nil
      refine hit before v w hv (ih w.length ?_ _ hv.divides_behind rfl)
      rw [List.length_append]
      omega
    · have hnot : ∀ v w, s = v ++ w → ¬ mode.OccursIn name before v w :=
        fun v w hvw hoccurs => hocc ⟨v, w, hvw, hoccurs⟩
      clear hocc
      -- the induction is only used to see the first glyph
      induction hs using Divides.induction with
      | nil => exact nil before
      | append v w hv hw _ =>
        have hpos := List.length_pos_iff.2 hv.ne_nil
        refine plain before v w hv hw hnot (ih w.length ?_ _ hw rfl)
        rw [List.length_append]
        omega

theorem flatMap_text_spansFrom (mode : Matching) (name : Text) (before : Option UInt8) (s : Text) :
    (mode.spansFrom name before s).flatMap Span.text = s := by
  rw [spansFrom, Target.flatMap_text_spans, flatMap_text_glyphs]

/-- No span is empty. -/
theorem Divides.text_ne_nil_of_mem_spansFrom (hs : mode.Divides s) {before : Option UInt8} :
    ∀ span ∈ mode.spansFrom name before s, span.text ≠ [] := by
  induction before, hs using Divides.spans_induction name with
  | nil before =>
    rw [spansFrom_nil]
    simp
  | hit before v w hv ih =>
    rw [hv.spansFrom_append]
    exact List.forall_mem_cons.2 ⟨hv.ne_nil, ih⟩
  | plain before v w hv hw hnot ih =>
    rw [spansFrom_glyph_append hv hw hnot]
    exact List.forall_mem_cons.2 ⟨hv.ne_nil, ih⟩

/-- **Every hit is an occurrence** at its place. -/
theorem Divides.occursIn_of_spansFrom (hs : mode.Divides s) {before : Option UInt8}
    {front back : List Span} (h : mode.spansFrom name before s = front ++ .hit u :: back) :
    mode.OccursIn name ((front.flatMap Span.text).getLast?.or before) u
      (back.flatMap Span.text) := by
  -- span by span, where what is passed over becomes what stands before
  induction before, hs using Divides.spans_induction name generalizing front with
  | nil before =>
    rw [spansFrom_nil] at h
    exact absurd h.symm (by simp)
  | hit before v w hv ih =>
    rw [hv.spansFrom_append] at h
    cases front with
    | nil =>
      obtain ⟨hhit, rfl⟩ := List.cons.inj h
      cases hhit
      rw [flatMap_text_spansFrom]
      exact hv
    | cons span front =>
      obtain ⟨rfl, hrest⟩ := List.cons.inj h
      rw [List.flatMap_cons, Span.text, Text.getLast?_append_or hv.ne_nil]
      exact ih hrest
  | plain before v w hv hw hnot ih =>
    rw [spansFrom_glyph_append hv hw hnot] at h
    cases front with
    | nil => cases (List.cons.inj h).1
    | cons span front =>
      obtain ⟨rfl, hrest⟩ := List.cons.inj h
      rw [List.flatMap_cons, Span.text, Text.getLast?_append_or hv.ne_nil]
      exact ih hrest

/-- **Every occurrence has the key of the name**, wherever it is found. -/
theorem Divides.key_of_hit_mem_spansFrom (hs : mode.Divides s) {before : Option UInt8}
    (h : .hit u ∈ mode.spansFrom name before s) :
    mode.key u = mode.key name ∧ mode.Divides u := by
  obtain ⟨front, back, hspans⟩ := List.append_of_mem h
  have hoccurs := hs.occursIn_of_spansFrom hspans
  exact ⟨hoccurs.key_eq, hoccurs.divides⟩

/-- **Every occurrence is met**: where one begins, a hit begins or is under way. -/
theorem Divides.exists_hit_of_occursIn (hs : mode.Divides s) {before : Option UInt8}
    {a : Text} (h : s = a ++ (u ++ t)) (hu : mode.OccursIn name (a.getLast?.or before) u t) :
    ∃ front v back, mode.spansFrom name before s = front ++ .hit v :: back ∧
      (front.flatMap Span.text).length ≤ a.length ∧
      a.length < (front.flatMap Span.text).length + v.length := by
  -- span by span, up to the one that the occurrence begins in
  induction before, hs using Divides.spans_induction name generalizing a with
  | nil before =>
    have hnil := (List.append_eq_nil_iff.1 (List.append_eq_nil_iff.1 h.symm).2).1
    exact absurd hnil hu.ne_nil
  | hit before v w hv ih =>
    rw [hv.spansFrom_append]
    by_cases hlt : a.length < v.length
    · exact ⟨[], v, _, rfl, Nat.zero_le _, by simpa using hlt⟩
    · -- it begins behind this hit, as it does not begin inside of it
      obtain ⟨a', rfl, hw⟩ : ∃ a', a = v ++ a' ∧ w = a' ++ (u ++ t) := by
        rcases List.append_eq_append_iff.1 h with hcase | ⟨m, rfl, hm⟩
        · exact hcase
        · rw [List.length_append] at hlt
          have hm' : m = [] := List.length_eq_zero_iff.1 (by omega)
          subst hm'
          exact ⟨[], by simp, by simpa using hm.symm⟩
      rw [Text.getLast?_append_or hv.ne_nil] at hu
      obtain ⟨front, v', back, hspans, hle, hlt'⟩ := ih hw hu
      refine ⟨.hit v :: front, v', back, by rw [hspans]; rfl, ?_, ?_⟩ <;>
        rw [List.flatMap_cons, Span.text, List.length_append, List.length_append] <;> omega
  | plain before v w hv hw hnot ih =>
    rw [spansFrom_glyph_append hv hw hnot]
    -- an occurrence right here would not have been passed over as plain
    by_cases hnil : a = []
    · subst hnil
      exact absurd hu (hnot u t h)
    · obtain ⟨a', rfl, hw'⟩ := hv.exists_eq_append (hu.divides.append hu.divides_behind) h hnil
      rw [Text.getLast?_append_or hv.ne_nil] at hu
      obtain ⟨front, v', back, hspans, hle, hlt'⟩ := ih hw' hu
      refine ⟨.plain v :: front, v', back, by rw [hspans]; rfl, ?_, ?_⟩ <;>
        rw [List.flatMap_cons, Span.text, List.length_append, List.length_append] <;> omega

/-- What occurs stands alone by itself, whatever bytes the name is made of. -/
theorem OccursIn.standsAlone_self {before : Option UInt8}
    (h : Matching.folded.OccursIn name before u t) : standsAlone u before t.head? = true := by
  have hu : u.IsUtf8 := h.divides
  have hfold : u.foldCase = name.foldCase := h.key_eq
  -- a word byte at an end of what is found is one of the name, too, as folding tells the two apart
  -- nowhere
  have hhead : u.head?.any Ascii.isWord = true → name.head?.any Ascii.isWord = true := by
    rw [← Caseless.isWord.any_head?_foldCase hu, hfold]
    exact Text.isWord_head_of_foldCase
  have hlast : u.getLast?.any Ascii.isWord = true → name.getLast?.any Ascii.isWord = true := by
    rw [← Caseless.isWord.any_getLast?_foldCase hu, hfold]
    exact Text.isWord_getLast_of_foldCase
  have halone := h.alone
  simp only [standsAlone, Bool.and_eq_true, Bool.not_eq_true', Bool.and_eq_false_iff] at halone ⊢
  grind

/-- What stands alone by itself occurs, if the name is made of characters too. -/
theorem occursIn_of_standsAlone {before : Option UInt8} (hname : name.IsUtf8) (hne : u ≠ [])
    (hu : u.IsUtf8) (ht : t.IsUtf8) (hfold : u.foldCase = name.foldCase)
    (halone : standsAlone u before t.head? = true) :
    Matching.folded.OccursIn name before u t := by
  refine ⟨hne, hu, ht, hfold, ?_⟩
  rw [standsAlone, ← Caseless.isWord.any_head?_foldCase hname,
    ← Caseless.isWord.any_getLast?_foldCase hname, ← hfold,
    Caseless.isWord.any_head?_foldCase hu, Caseless.isWord.any_getLast?_foldCase hu]
  exact halone

/-- **An exact occurrence is one up to letter case**, in a text that is UTF-8: neither end of it
lies inside a character, as it would not stand alone there. -/
theorem OccursIn.folded_of_exact {a : Text} (hs : (a ++ (u ++ t)).IsUtf8)
    (h : Matching.exact.OccursIn name a.getLast? u t) :
    Matching.folded.OccursIn name a.getLast? u t := by
  obtain rfl : u = name := h.key_eq
  obtain ⟨hfront, hbehind⟩ := Bool.and_eq_true_iff.1 h.alone
  -- a character that is cut would be a word on both sides
  have hhead : (u ++ t).head?.any isContinuation = false := by
    by_contra hcut
    obtain ⟨hbefore, hword⟩ := hs.isWord_of_isContinuation (Bool.not_eq_false _ ▸ hcut)
    rw [List.head?_append_of_ne_nil _ h.ne_nil] at hword
    rw [hbefore, hword] at hfront
    cases hfront
  have htail : t.head?.any isContinuation = false := by
    by_contra hcut
    rw [← List.append_assoc] at hs
    obtain ⟨hbefore, hword⟩ := hs.isWord_of_isContinuation (Bool.not_eq_false _ ▸ hcut)
    rw [List.getLast?_append_of_ne_nil _ h.ne_nil] at hbefore
    rw [hbefore, hword] at hbehind
    cases hbehind
  obtain ⟨hu, ht⟩ := (hs.of_append hhead).2.of_append htail
  exact ⟨h.ne_nil, hu, ht, rfl, h.alone⟩

/-- **With less around it** an occurrence stands alone all the more. -/
theorem OccursIn.of_append {a b r : Text} (hs : (a ++ (u ++ t)).IsUtf8)
    (h : Matching.folded.OccursIn name (b ++ a).getLast? u (t ++ r)) :
    Matching.folded.OccursIn name a.getLast? u t := by
  refine ⟨h.ne_nil, h.divides, (hs.around h.divides h.ne_nil).2, h.key_eq, ?_⟩
  -- nearer ends hide at most what stood beside the occurrence
  obtain ⟨hfront, hback⟩ := Bool.and_eq_true_iff.1 h.alone
  rw [standsAlone, Bool.and_eq_true]
  constructor
  · by_cases hnil : a = []
    · rw [hnil]
      simp
    · rwa [List.getLast?_append_of_ne_nil _ hnil] at hfront
  · by_cases hnil : t = []
    · rw [hnil]
      simp
    · rwa [List.head?_append_of_ne_nil _ hnil] at hback

end Matching

end AssayRules
