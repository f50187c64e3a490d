import AssayRules.Proofs.Canonical
import Mathlib.Data.List.DropRight

/-!
# One round of stripping

Canonical spelling takes a name out of what is around it: blanks in front, and behind it blanks,
commas and blanks once more, which is one round (`Name.Round`). It stops there, and so it may stop
at a comma, namely at one that has blanks and commas behind it. `Name.exists_round` and
`Name.canonical_of_round` say that this is all there is to it: a spelling is the canonical one of
a text if the text is the spelling in such a setting, and a spelling that ends with a comma has
both blanks and commas behind it.

What follows is when one round is enough. The canonical spelling is its own canonical spelling
exactly if the blanks and commas at the end of the name are one round, and more of them may be
written behind a name exactly as long as they make one round with what is stripped from it
(`Name.canonical_canonical_eq_iff`).
-/

namespace AssayRules

namespace Name

/-- **One round of stripping**: blanks, commas and blanks again, any of which may be missing. -/
structure Round where
  inner : Text
  commas : Text
  outer : Text
  innerBlank : ∀ c ∈ inner, Ascii.isSpace c = true
  areCommas : ∀ c ∈ commas, c = Ascii.comma
  outerBlank : ∀ c ∈ outer, Ascii.isSpace c = true

/-- The text that a round strips. -/
def Round.text (round : Round) : Text := round.inner ++ (round.commas ++ round.outer)

/-- The round that strips nothing. -/
def Round.empty : Round := ⟨[], [], [], by simp, by simp, by simp⟩

/-- **A text is stripped in one round.** -/
def IsRound (s : Text) : Prop := ∃ round : Round, round.text = s

/-- The blanks and commas at the end of a name. -/
def trailing (name : Text) : Text := name.rtakeWhile isTrailing

/-- What canonical spelling strips from the end of a name. -/
def stripped (name : Text) : Text := (name.dropWhile Ascii.isSpace).drop (canonical name).length

variable {name s t before : Text}

/-! ### Telling one round -/

theorem Round.text_empty : Round.empty.text = [] := rfl

theorem isRound_iff : IsRound s ↔
    ((s.dropWhile Ascii.isSpace).dropWhile (· == Ascii.comma)).all Ascii.isSpace = true := by
  rw [List.all_eq_true]
  -- read from the front, as the blanks in front are all there are
  constructor
  · rintro ⟨⟨inner, commas, outer, hinner, hcommas, houter⟩, rfl⟩
    rw [Round.text, List.dropWhile_append_of_pos hinner]
    cases commas with
    | nil =>
      rw [List.nil_append, List.dropWhile_eq_nil_iff.2 houter]
      simp
    | cons d commas =>
      have hd : ¬ Ascii.isSpace d = true := by
        rw [hcommas d List.mem_cons_self]
        decide
      rw [List.cons_append, List.dropWhile_cons_of_neg hd, ← List.cons_append,
        List.dropWhile_append_of_pos fun c hc => beq_iff_eq.2 (hcommas c hc)]
      exact fun c hc => houter c ((List.dropWhile_suffix _).mem hc)
  · -- the parts are what the two drops take
    intro h
    refine ⟨⟨s.takeWhile Ascii.isSpace, (s.dropWhile Ascii.isSpace).takeWhile (· == Ascii.comma), _,
      fun c hc => List.mem_takeWhile_imp hc, fun c hc => beq_iff_eq.1 (List.mem_takeWhile_imp hc :),
      h⟩, ?_⟩
    rw [Round.text, List.takeWhile_append_dropWhile, List.takeWhile_append_dropWhile]

instance (s : Text) : Decidable (IsRound s) := decidable_of_iff _ isRound_iff.symm

example : IsRound (utf8 " ,, ") ∧ ¬ IsRound (utf8 ", ,") := by decide +kernel

/-- Blanks in front make no other round necessary. -/
theorem isRound_append_left (h : ∀ c ∈ s, Ascii.isSpace c = true) :
    IsRound (s ++ t) ↔ IsRound t := by
  rw [isRound_iff, isRound_iff, List.dropWhile_append_of_pos h]

theorem Round.isTrailing_of_mem {round : Round} {c : UInt8} (h : c ∈ round.text) :
    isTrailing c = true := by
  rw [isTrailing, Bool.or_eq_true, beq_iff_eq]
  rcases List.mem_append.1 h with h | h
  · exact Or.inl (round.innerBlank c h)
  · rcases List.mem_append.1 h with h | h
    · exact Or.inr (round.areCommas c h)
    · exact Or.inl (round.outerBlank c h)

/-- A round that begins with a blank and has a comma has both blanks and commas. -/
theorem Round.ne_nil {round : Round} (hhead : round.text.head?.any Ascii.isSpace = true)
    (hcomma : Ascii.comma ∈ round.text) : round.inner ≠ [] ∧ round.commas ≠ [] := by
  -- a comma is in the text, and it is no blank
  have hcommas : round.commas ≠ [] := by
    intro hnil
    rw [Round.text, hnil, List.nil_append] at hcomma
    rcases List.mem_append.1 hcomma with h | h
    · cases round.innerBlank _ h
    · cases round.outerBlank _ h
  -- with no blank in front, the text would begin with a comma
  refine ⟨fun hnil => ?_, hcommas⟩
  rw [Round.text, hnil, List.nil_append] at hhead
  obtain ⟨d, commas, hd⟩ := List.exists_cons_of_ne_nil hcommas
  have hcomma := round.areCommas d (hd ▸ List.mem_cons_self)
  rw [hd, List.cons_append, List.head?_cons, Option.any_some, hcomma] at hhead
  cases hhead

/-! ### What is around a canonical spelling -/

/-- Blanks in front of a name are no part of it. -/
theorem canonical_append_left (hbefore : ∀ c ∈ before, Ascii.isSpace c = true) :
    canonical (before ++ name) = canonical name := by
  rw [canonical, Text.trim_append_left hbefore, canonical]

theorem head?_canonical (name : Text) : (canonical name).head?.any Ascii.isSpace = false :=
  Text.head?_trim _

theorem getLast?_canonical (name : Text) : (canonical name).getLast?.any Ascii.isSpace = false :=
  Text.getLast?_trim _

/-- **A canonical spelling stands** behind blanks and in front of one round. If it ends with a
comma, the round has blanks and commas. -/
theorem exists_round (name : Text) : ∃ (before : Text) (round : Round),
    name = before ++ (canonical name ++ round.text) ∧ (∀ c ∈ before, Ascii.isSpace c = true) ∧
      ((canonical name).getLast? = some Ascii.comma → round.inner ≠ [] ∧ round.commas ≠ []) := by
  -- the blanks outside, the commas, and the blanks in front of these
  obtain ⟨before, outer, hname, hbefore, houter⟩ := Text.exists_trim name
  obtain ⟨commas, hcommas, hcomma⟩ :=
    Text.exists_append_dropEndWhile (· == Ascii.comma) name.trim
  obtain ⟨inner, hinner, hinnerBlank⟩ := exists_append_canonical name
  have hlast := Text.getLast?_dropEndWhile (p := (· == Ascii.comma)) (s := name.trim)
  have htrim := Text.getLast?_trim name
  let round : Round := ⟨inner, commas, outer, hinnerBlank, fun c hc => beq_iff_eq.1 (hcomma c hc),
    houter⟩
  refine ⟨before, round, ?_, hbefore, fun hends => ?_⟩
  · calc name
        = before ++ name.trim ++ outer := hname
      _ = before ++ (canonical name ++ inner ++ commas) ++ outer := by rw [hcommas, hinner]
      _ = before ++ (canonical name ++ round.text) := by simp [round, Round.text]
  · have hinnerNe : inner ≠ [] := by
      -- the comma would have been dropped with the others
      rintro rfl
      rw [hinner, List.append_nil, hends] at hlast
      cases hlast
    refine ⟨hinnerNe, ?_⟩
    -- the blanks would have been trimmed at first
    rintro rfl
    rw [hcommas, List.append_nil, hinner, List.getLast?_append_of_ne_nil _ hinnerNe,
      List.getLast?_eq_some_getLast hinnerNe, Option.any_some,
      hinnerBlank _ (List.getLast_mem hinnerNe)] at htrim
    cases htrim

/-- **What stands so is the canonical spelling.** -/
theorem canonical_of_round (hbefore : ∀ c ∈ before, Ascii.isSpace c = true) (round : Round)
    (hhead : s.head?.any Ascii.isSpace = false) (hlast : s.getLast?.any Ascii.isSpace = false)
    (hcomma : s.getLast? = some Ascii.comma → round.inner ≠ [] ∧ round.commas ≠ []) :
    canonical (before ++ (s ++ round.text)) = s := by
  -- each of the three steps takes one part of the round
  obtain ⟨inner, commas, outer, hinner, hcommas, houter⟩ := round
  dsimp only at hcomma
  have htrim : s.trim = s := Text.trim_of_not hhead hlast
  have hcommas' : ∀ c ∈ commas, (c == Ascii.comma) = true :=
    fun c hc => beq_iff_eq.2 (hcommas c hc)
  have hround : s ++ (inner ++ (commas ++ outer)) = s ++ inner ++ commas ++ outer := by
    simp only [List.append_assoc]
  rw [canonical, Round.text, Text.trim_append_left hbefore, hround, Text.trim_append_right houter]
  cases commas with
  | nil =>
    -- no comma is found at the end, and the blanks have gone before
    have hnot : s.getLast?.any (· == Ascii.comma) = false := by
      rw [Option.any_eq_false]
      intro c hc
      exact beq_eq_false_iff_ne.2 fun heq => (hcomma (hc.trans (congrArg some heq))).2 rfl
    rw [List.append_nil, Text.trim_append_right hinner, htrim, Text.dropEndWhile_of_not hnot, htrim]
  | cons d commas =>
    have hblock : (d :: commas).head?.any Ascii.isSpace = false ∧
        (d :: commas).getLast?.any Ascii.isSpace = false := by
      have hne : d :: commas ≠ [] := List.cons_ne_nil _ _
      rw [List.head?_cons, List.getLast?_eq_some_getLast hne, Option.any_some, Option.any_some,
        hcommas _ (List.getLast_mem hne), hcommas d List.mem_cons_self]
      exact ⟨rfl, rfl⟩
    -- with nothing in front, the blanks of the round go with the first trim
    cases s with
    | nil =>
      rw [List.nil_append, Text.trim_append_left hinner, Text.trim_of_not hblock.1 hblock.2,
        ← List.nil_append (d :: commas), Text.dropEndWhile_append_of_all hcommas']
      rfl
    | cons c s =>
      -- what is in front of the commas ends with a blank, or else with no comma
      have hnot : (c :: s ++ inner).getLast?.any (· == Ascii.comma) = false := by
        rw [Option.any_eq_false]
        rintro b hb
        refine beq_eq_false_iff_ne.2 fun heq => ?_
        cases inner with
        | nil =>
          rw [List.append_nil] at hb
          exact (hcomma (hb.trans (congrArg some heq))).1 rfl
        | cons a inner =>
          rw [List.getLast?_append_of_ne_nil _ (List.cons_ne_nil a inner)] at hb
          have hspace := hinner b (List.mem_of_getLast? hb)
          rw [heq] at hspace
          cases hspace
      have hend : (c :: s ++ inner ++ d :: commas).getLast?.any Ascii.isSpace = false := by
        rw [List.getLast?_append_of_ne_nil _ (List.cons_ne_nil d commas)]
        exact hblock.2
      rw [Text.trim_of_not (s := c :: s ++ inner ++ d :: commas) hhead hend,
        Text.dropEndWhile_append_of_all hcommas', Text.dropEndWhile_of_not hnot,
        Text.trim_append_right hinner, htrim]

/-- **The parts of a name**: blanks, its canonical spelling, and what is stripped, which is one
round. If the spelling ends with a comma, the round has blanks and commas. -/
theorem exists_round_stripped (name : Text) : ∃ round : Round, round.text = stripped name ∧
    name = name.takeWhile Ascii.isSpace ++ (canonical name ++ stripped name) ∧
      ((canonical name).getLast? = some Ascii.comma → round.inner ≠ [] ∧ round.commas ≠ []) := by
  obtain ⟨before, round, hname, hbefore, hcomma⟩ := exists_round name
  have hdrop : name.dropWhile Ascii.isSpace
      = (canonical name ++ round.text).dropWhile Ascii.isSpace := by
    conv_lhs => rw [hname]
    exact List.dropWhile_append_of_pos hbefore
  have hparts : name = name.takeWhile Ascii.isSpace ++ name.dropWhile Ascii.isSpace :=
    List.takeWhile_append_dropWhile.symm
  by_cases hnil : canonical name = []
  · -- the blanks in front may be those of the round
    rw [hnil, List.nil_append] at hdrop
    have hround : IsRound (stripped name) := by
      rw [stripped, hnil, hdrop, List.length_nil, List.drop_zero, ← isRound_append_left
        (s := round.text.takeWhile Ascii.isSpace) fun c hc => List.mem_takeWhile_imp hc,
        List.takeWhile_append_dropWhile]
      exact ⟨round, rfl⟩
    obtain ⟨round', hround'⟩ := hround
    refine ⟨round', hround', ?_, by rw [hnil]; rintro ⟨⟩⟩
    rw [hnil, List.nil_append, stripped, hnil, List.length_nil, List.drop_zero]
    exact hparts
  · -- the spelling begins with no blank, so the blanks in front are those of the name
    have hhead : (canonical name ++ round.text).head?.any Ascii.isSpace = false := by
      obtain ⟨c, rest, hc⟩ := List.exists_cons_of_ne_nil hnil
      have hfirst : (canonical name).head?.any Ascii.isSpace = false := Text.head?_trim _
      rw [hc] at hfirst ⊢
      exact hfirst
    rw [Text.dropWhile_of_not hhead] at hdrop
    have hstripped : stripped name = round.text := by
      rw [stripped, hdrop, List.drop_left]
    refine ⟨round, hstripped.symm, ?_, hcomma⟩
    rw [hstripped, ← hdrop]
    exact hparts

/-! ### When one round is enough -/

theorem trailing_append (hs : s.getLast?.any isTrailing = false)
    (ht : ∀ c ∈ t, isTrailing c = true) : trailing (s ++ t) = t := by
  -- from behind, as it is the end of the text that is read
  have ht' : ∀ c ∈ t.reverse, isTrailing c = true := fun c hc => ht c (List.mem_reverse.1 hc)
  have hs' : s.reverse.takeWhile isTrailing = [] := by
    rw [List.getLast?_eq_head?_reverse] at hs
    cases hrev : s.reverse with
    | nil => rfl
    | cons c rest =>
      rw [hrev, List.head?_cons, Option.any_some] at hs
      exact List.takeWhile_cons_of_neg (by simp [hs])
  rw [trailing, List.rtakeWhile, List.reverse_append, List.takeWhile_append_of_pos ht', hs',
    List.append_nil, List.reverse_reverse]

theorem isTrailing_eq_false_iff {c : UInt8} :
    isTrailing c = false ↔ Ascii.isSpace c = false ∧ c ≠ Ascii.comma := by
  rw [isTrailing, Bool.or_eq_false_iff, beq_eq_false_iff_ne]

/-- A name without blanks in front, and without the blanks and commas at its end. -/
def core (name : Text) : Text := (Text.dropEndWhile isTrailing name).dropWhile Ascii.isSpace

theorem head?_core (name : Text) : (core name).head?.any Ascii.isSpace = false := by
  have hnot := List.head?_dropWhile_not Ascii.isSpace (Text.dropEndWhile isTrailing name)
  rw [← core] at hnot
  cases hc : core name with
  | nil => rfl
  | cons c rest =>
    rw [hc] at hnot
    exact hnot

theorem getLast?_core (name : Text) : (core name).getLast?.any isTrailing = false := by
  have hlast := Text.getLast?_dropEndWhile (p := isTrailing) (s := name)
  by_cases hnil : core name = []
  · rw [hnil]
    rfl
  · rwa [← List.takeWhile_append_dropWhile (p := Ascii.isSpace)
      (l := Text.dropEndWhile isTrailing name), ← core,
      List.getLast?_append_of_ne_nil _ hnil] at hlast

theorem isTrailing_of_mem_getLast?_core {c : UInt8} (h : (core name).getLast? = some c) :
    Ascii.isSpace c = false ∧ c ≠ Ascii.comma := by
  have hlast := getLast?_core name
  rw [h, Option.any_some] at hlast
  exact isTrailing_eq_false_iff.1 hlast

/-- **One round takes all there is to take.** -/
theorem canonical_eq_core (h : IsRound (trailing name)) : canonical name = core name := by
  obtain ⟨round, hround⟩ := h
  have hname : (Text.dropEndWhile isTrailing name).takeWhile Ascii.isSpace
      ++ (core name ++ round.text) = name := by
    rw [hround, ← List.append_assoc, core, List.takeWhile_append_dropWhile]
    exact List.rdropWhile_append_rtakeWhile ..
  conv_lhs => rw [← hname]
  refine canonical_of_round (fun c hc => List.mem_takeWhile_imp hc) round (head?_core name) ?_
    fun hends => absurd rfl (isTrailing_of_mem_getLast?_core hends).2
  exact (Option.any_eq_false _ _).2 fun c hc => (isTrailing_of_mem_getLast?_core hc).1

/-- **A canonical spelling ends with no comma** exactly if there was but one round behind it. -/
theorem isRound_trailing_iff (name : Text) :
    IsRound (trailing name) ↔ (canonical name).getLast? ≠ some Ascii.comma := by
  constructor
  · -- a comma at the end would be one of the trailing bytes
    intro h hends
    rw [canonical_eq_core h] at hends
    exact (isTrailing_of_mem_getLast?_core hends).2 rfl
  · intro hcomma
    obtain ⟨round, hround, hname, -⟩ := exists_round_stripped name
    have hstripped : ∀ c ∈ stripped name, isTrailing c = true :=
      fun c hc => Round.isTrailing_of_mem (hround ▸ hc)
    have hspace : ∀ c ∈ name.takeWhile Ascii.isSpace, Ascii.isSpace c = true :=
      fun c hc => List.mem_takeWhile_imp hc
    by_cases hnil : canonical name = []
    · -- there is nothing else, and the blanks in front go with the round
      rw [hnil, List.nil_append] at hname
      have hall : trailing name = name := by
        refine List.rtakeWhile_eq_self_iff.2 fun c hc => ?_
        rw [hname] at hc
        rcases List.mem_append.1 hc with hc | hc
        · rw [isTrailing, hspace c hc, Bool.true_or]
        · exact hstripped c hc
      rw [hall, hname, isRound_append_left hspace]
      exact ⟨round, hround⟩
    · -- the spelling ends with neither, so what is trailing begins behind it
      have hlast : (name.takeWhile Ascii.isSpace ++ canonical name).getLast?.any isTrailing
          = false := by
        rw [List.getLast?_append_of_ne_nil _ hnil, Option.any_eq_false]
        intro c hc
        have hblank := getLast?_canonical name
        rw [hc, Option.any_some] at hblank
        exact isTrailing_eq_false_iff.2 ⟨hblank, fun heq => hcomma (hc.trans (congrArg some heq))⟩
      rw [← List.append_assoc] at hname
      rw [hname, trailing_append hlast hstripped]
      exact ⟨round, hround⟩

/-- **Canonical spelling twice** is canonical spelling once exactly if that ends with no comma. -/
theorem canonical_canonical_eq_iff_getLast? (name : Text) :
    canonical (canonical name) = canonical name ↔
      (canonical name).getLast? ≠ some Ascii.comma := by
  constructor
  · -- what has been through a round ends with no comma
    intro h hcomma
    have hlast := getLast?_of_canonical_eq h
    rw [hcomma] at hlast
    cases hlast
  · -- with no comma at its end, an empty round is enough to leave the spelling as it is
    intro hcomma
    have hempty : canonical ([] ++ (canonical name ++ Round.empty.text)) = canonical name :=
      canonical_of_round (List.forall_mem_nil _) .empty (head?_canonical name)
        (getLast?_canonical name) fun h => absurd h hcomma
    rwa [Round.text_empty, List.append_nil, List.nil_append] at hempty

/-- **What may be written behind a name** without another canonical spelling. -/
theorem canonical_append_eq_iff (name behind : Text) :
    canonical (name ++ behind) = canonical name ↔ IsRound (stripped name ++ behind) := by
  -- the blanks in front of the name do not matter, so it is the spelling that goes on
  obtain ⟨round, hround, hname, hcomma⟩ := exists_round_stripped name
  have happend : canonical (name ++ behind)
      = canonical (canonical name ++ (stripped name ++ behind)) := by
    conv_lhs => rw [hname, List.append_assoc, List.append_assoc]
    exact canonical_append_left fun c hc => List.mem_takeWhile_imp hc
  rw [happend]
  -- a round behind the spelling is what a round has taken, and the other way round
  constructor
  · intro h
    obtain ⟨before, round', hparts, hbefore, -⟩ :=
      exists_round (canonical name ++ (stripped name ++ behind))
    rw [h] at hparts
    cases hcanonical : canonical name with
    | nil =>
      rw [hcanonical, List.nil_append, List.nil_append] at hparts
      rw [hparts, isRound_append_left hbefore]
      exact ⟨round', rfl⟩
    | cons c rest =>
      -- a blank in front would be the first byte of the spelling
      have hhead := head?_canonical name
      rw [hcanonical] at hparts hhead
      cases before with
      | nil => exact ⟨round', (List.append_cancel_left hparts).symm⟩
      | cons d before =>
        have hd := hbefore d List.mem_cons_self
        rw [← (List.cons.inj hparts).1] at hd
        rw [List.head?_cons, Option.any_some, hd] at hhead
        cases hhead
  · rintro ⟨round', hround'⟩
    rw [← hround', ← List.nil_append (canonical name ++ round'.text)]
    refine canonical_of_round (by simp) round' (head?_canonical name) (getLast?_canonical name)
      fun hends => ?_
    -- blanks and a comma behind it there are already
    obtain ⟨hinner, hcommas⟩ := hcomma hends
    obtain ⟨c, inner, hc⟩ := List.exists_cons_of_ne_nil hinner
    obtain ⟨d, commas, hd⟩ := List.exists_cons_of_ne_nil hcommas
    have hspace := round.innerBlank c (hc ▸ List.mem_cons_self)
    have hdcomma := round.areCommas d (hd ▸ List.mem_cons_self)
    have htext :
        round'.text = c :: (inner ++ (Ascii.comma :: commas ++ round.outer) ++ behind) := by
      rw [hround', ← hround, Round.text, hc, hd, hdcomma]
      simp only [List.cons_append, List.append_assoc]
    refine round'.ne_nil ?_ ?_
    · rw [htext]
      exact hspace
    · rw [htext]
      simp

/-- **How far canonical spelling is canonical.** It never begins or ends with a blank. It ends with
a comma exactly if the blanks and commas at the end of the name are more than one round, and it is
its own canonical spelling exactly if they are one. What is appended to the name leaves it as it is
exactly if that makes one round with what was stripped. -/
theorem canonical_canonical_eq_iff (name : Text) :
    (canonical name).head?.any Ascii.isSpace = false ∧
    (canonical name).getLast?.any Ascii.isSpace = false ∧
    ((canonical name).getLast? = some Ascii.comma ↔ ¬ IsRound (trailing name)) ∧
    (canonical (canonical name) = canonical name ↔ IsRound (trailing name)) ∧
    ∀ behind, canonical (name ++ behind) = canonical name ↔ IsRound (stripped name ++ behind) :=
  ⟨head?_canonical name, getLast?_canonical name,
    (not_iff_comm.1 (isRound_trailing_iff name).symm).symm,
    (canonical_canonical_eq_iff_getLast? name).trans (isRound_trailing_iff name).symm,
    canonical_append_eq_iff name⟩

/-- Two rounds behind a name: a comma is left, goes the next time, and is not left by the name
alone. -/
theorem canonical_canonical_ne_of_two_rounds :
    canonical (canonical (utf8 "a, ,")) ≠ canonical (utf8 "a, ,") ∧
      (canonical (utf8 "a, ,")).getLast? = some Ascii.comma ∧
      (∀ c ∈ utf8 ", ,", isTrailing c = true) ∧
      canonical (utf8 "a" ++ utf8 ", ,") ≠ canonical (utf8 "a") := by
  decide +kernel

end Name

end AssayRules
