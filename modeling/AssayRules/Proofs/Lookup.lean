import AssayRules.Proofs.Settled

/-!
# A bare name and a bracketed one

A variable in brackets is looked up: by its spelling, and up to letter case only if that fails.
A bare one is looked for the other way round, by going through the recorded spellings, longest
first, until one is found in it. That is often the same one, but not always.

A spelling is found in a name if it occurs there up to letter case (`FoundIn`). The first
spelling that is found decides (`evaluate_name`): its reading is the value if it agrees with the
whole name, and if it is only a part of it the name is torn and has no value. Spellings of a
variable that differ in letter case alone are as long as one another most of the time, and then
the order of their bytes says which is first (`evaluate_name_of_two_cases`).
-/

namespace AssayRules

open Shard

/-- **The outcome of an expression** that has the value `x`, if that is finite. -/
def outcomeOf (expression : Text) (x : Float) : Except ExpressionError Float :=
  if x.isFinite then .ok x else .error (.notFinite expression)

/-- **A spelling is found in a text**, up to letter case and standing alone. -/
def FoundIn (name r : Text) : Prop :=
  ∃ a u t, r = a ++ (u ++ t) ∧ Matching.folded.OccursIn name a.getLast? u t

/-- A name in brackets. -/
def bracketed (name : Text) : Text := Ascii.leftBracket :: name ++ [Ascii.rightBracket]

variable {readings : Readings} {n : Text} {x : Float}

/-! ### One reading and nothing else -/

theorem substitute_of_value {expression : Text}
    (hclosed : (segments expression).any Segment.isUnclosed = false)
    (hmissing : missingReferences readings (segments expression) = [])
    (hpieces : replaceEntries readings (referencePieces readings (segments expression))
      = [.value x]) : substitute expression readings = .ok [.number x, .stop] := by
  refine substitute_eq_ok_iff.2 ⟨hclosed, hmissing, ?_, [.number x], ?_, rfl⟩
  · rw [hpieces]
    rfl
  · rw [hpieces]
    rfl

theorem evaluate_of_number {expression : Text}
    (h : substitute expression readings = .ok [.number x, .stop]) (mode : Precedence) :
    evaluate expression readings mode = outcomeOf expression x := by
  have hparses : mode.Parses 0 ([Token.number x, .stop].takeWhile (· != .stop)) (.number x) :=
    .number 0 x
  have hvalue : evaluateTokens mode [.number x, .stop] = .ok x := evaluateTokens_of_parses hparses
  rw [evaluate, h]
  dsimp only
  rw [hvalue]
  rfl

theorem evaluate_of_value {expression : Text} (mode : Precedence)
    (hclosed : (segments expression).any Segment.isUnclosed = false)
    (hmissing : missingReferences readings (segments expression) = [])
    (hpieces : replaceEntries readings (referencePieces readings (segments expression))
      = [.value x]) : evaluate expression readings mode = outcomeOf expression x :=
  evaluate_of_number (substitute_of_value hclosed hmissing hpieces) mode

/-- **A reference in brackets and nothing else** becomes the reading that is looked up. -/
theorem substitute_reference {inside : Text} (hinside : Ascii.rightBracket ∉ inside)
    (hx : readings.find? (Name.canonical inside) = some x) :
    substitute (Segment.reference inside).text readings = .ok [.number x, .stop] := by
  -- the whole text is one reference
  have hsegments : segments (Segment.reference inside).text = [.reference inside] := by
    have hreference := segments_reference_append hinside []
    rwa [segments_nil, List.append_nil] at hreference
  refine substitute_of_value ?_ ?_ ?_
  · rw [hsegments]
    rfl
  · -- the one reference that there is has a reading
    rw [hsegments]
    refine List.filter_eq_nil_iff.2 fun name hname => ?_
    obtain rfl := List.mem_singleton.1 hname
    rw [Readings.contains, hx]
    simp
  · -- no text is left for the entries to be found in
    have hpieces : referencePieces readings [.reference inside] = [.value x] := by
      rw [referencePieces, List.filterMap_cons, Segment.piece?, hx]
      rfl
    rw [hsegments, hpieces, replaceEntries, foldl_replaceEntry_value]

theorem bracket_notMem_of_isBare (hn : Name.IsBare n) :
    Ascii.leftBracket ∉ n ∧ Ascii.rightBracket ∉ n := by
  constructor <;> intro hmem <;> cases (Name.isBare_iff.1 hn).2.1 _ hmem

/-- **A name in brackets** has the reading that is looked up. -/
theorem evaluate_bracketed (hn : Name.IsBare n) (hx : readings.find? n = some x)
    (mode : Precedence) :
    evaluate (bracketed n) readings mode = outcomeOf (bracketed n) x := by
  have hfind : readings.find? (Name.canonical n) = some x := by rwa [hn.canonical_eq]
  exact evaluate_of_number (substitute_reference (bracket_notMem_of_isBare hn).2 hfind) mode

/-! ### One run -/

section NoBrackets

variable {s : Text} (h : Ascii.leftBracket ∉ s)
include h

theorem segments_of_notMem : segments s = s.map .byte := by
  have hsegments := segments_append_of_notMem h []
  rwa [List.append_nil, segments_nil, List.append_nil] at hsegments

theorem missingReferences_of_notMem : missingReferences readings (segments s) = [] := by
  rw [segments_of_notMem h]
  refine List.filter_eq_nil_iff.2 fun name hname => ?_
  obtain ⟨part, hpart, hpartName⟩ := List.mem_filterMap.1 hname
  obtain ⟨c, -, rfl⟩ := List.mem_map.1 hpart
  cases hpartName

/-- A text without brackets is one piece. -/
theorem referencePieces_of_notMem (hne : s ≠ []) :
    referencePieces readings (segments s) = [.text s] := by
  have hbytes : (s.map Segment.byte).filterMap (Segment.piece? readings)
      = (s.map fun c => [c]).map Piece.text := by
    rw [List.filterMap_map, List.map_map, ← List.filterMap_eq_map]
    rfl
  have hne : (s.map fun c => [c]) ≠ [] := fun hnil => hne (List.map_eq_nil_iff.1 hnil)
  have hmerge := Piece.mergeText_map_text_append hne []
  rw [List.append_nil, ← List.flatMap_def, List.flatMap_singleton'] at hmerge
  rw [segments_of_notMem h, referencePieces, hbytes, hmerge]
  rfl

end NoBrackets

theorem segments_of_isBare (hn : Name.IsBare n) : segments n = n.map .byte :=
  segments_of_notMem (bracket_notMem_of_isBare hn).1

theorem referencePieces_of_isBare (hn : Name.IsBare n) :
    referencePieces readings (segments n) = [.text n] :=
  referencePieces_of_notMem (bracket_notMem_of_isBare hn).1 hn.ne_nil

/-- The spellings that are not found leave the name as it is. -/
theorem foldl_turn_of_not_foundIn (hne : n ≠ []) (hutf8 : n.IsUtf8)
    {entries : List (Text × Float)} (h : ∀ e ∈ entries, ¬ FoundIn e.1 n) :
    entries.foldl Shard.turn [.text n] = [.text n] := by
  -- entry by entry, as the text is still whole for the next one
  induction entries with
  | nil => rfl
  | cons e entries ih =>
    obtain ⟨he, hentries⟩ := List.forall_mem_cons.1 h
    -- what a turn puts in would have been found in the text
    have hturn : Shard.turn [.text n] e = [.text n] := by
      refine (turn_text_cases hne hutf8 e).resolve_right ?_
      rintro ⟨front, v, back, hsplit, hoccurs⟩
      have hsources := sources_turn [.text n] e
      rw [hsplit, sources_append, sources_cons, sources_singleton, source, source] at hsources
      exact he ⟨_, _, _, hsources.symm, hoccurs⟩
    rw [List.foldl_cons, hturn, ih hentries]

/-- **A spelling that is found** has its reading put in for something. -/
theorem exists_reading_of_foundIn (hne : n ≠ []) (hutf8 : n.IsUtf8) {e : Text × Float}
    (he : FoundIn e.1 n) : ∃ front v back,
      Shard.turn [.text n] e = front ++ .reading e.2 v :: back ∧
        n = sources front ++ (v ++ sources back) ∧ v.foldCase = e.1.foldCase ∧ v ≠ [] ∧
          v.IsUtf8 := by
  obtain ⟨a, u, t, hsplit, hoccurs⟩ := he
  -- an empty spelling is found nowhere, as what is found is not empty
  have hentry : e.1 ≠ [] := by
    intro hnil
    have hfold : u.foldCase = e.1.foldCase := hoccurs.key_eq
    rw [hnil] at hfold
    exact Text.foldCase_ne_nil hoccurs.ne_nil hfold
  have hsources : sources [Shard.text n] = a ++ (u ++ t) := by rwa [sources_singleton]
  -- the turn leaves nothing in the text to be found, so that it cannot have left it whole
  have hnot := (Sound.singleton hne hutf8).not_inText_turn hentry hsources hoccurs
  rcases turn_text_cases hne hutf8 e with hturn | ⟨front, v, back, hturn, hv⟩
  · rw [hturn] at hnot
    exact absurd ⟨[], n, [], a, t, rfl, hsplit, rfl⟩ hnot
  · have hturnSources := sources_turn [.text n] e
    rw [hturn, sources_append, sources_cons, sources_singleton, source, source] at hturnSources
    exact ⟨front, v, back, hturn, hturnSources.symm, hv.key_eq, hv.ne_nil, hv.divides⟩

/-- **A spelling that agrees with the name** leaves its reading and nothing else. -/
theorem turn_of_foldCase_eq (hn : Name.IsBare n) (hutf8 : n.IsUtf8) {e : Text × Float}
    (he : FoundIn e.1 n) (hfold : e.1.foldCase = n.foldCase) :
    Shard.turn [.text n] e = [.reading e.2 n] := by
  obtain ⟨front, v, back, hturn, hsplit, hv, hne, hv'⟩ :=
    exists_reading_of_foundIn hn.ne_nil hutf8 he
  -- what is found has the length of the name under folding, and so there is nothing around it
  obtain ⟨hfront, hback⟩ := (Lexeme.infix_of_append hutf8 hv' hne hsplit).2 (hv.trans hfold)
  have hempty := (Sound.singleton hn.ne_nil hutf8).source_ne_nil_turn
    (List.forall_mem_singleton.2 hn.ne_nil) e
  have hnil : ∀ {shards : List Shard}, (∀ shard ∈ shards, shard ∈ Shard.turn [.text n] e) →
      sources shards = [] → shards = [] := by
    intro shards hmem hsources
    cases shards with
    | nil => rfl
    | cons shard rest =>
      exact absurd (List.append_eq_nil_iff.1 hsources).1
        (hempty shard (hmem shard List.mem_cons_self))
  obtain rfl := hnil (fun shard h => hturn ▸ List.mem_append_left _ h) hfront
  obtain rfl := hnil (fun shard h => hturn ▸ List.mem_append_right _ (List.mem_cons_of_mem _ h))
    hback
  rw [sources_nil, List.nil_append, List.append_nil] at hsplit
  rw [hturn, hsplit, List.nil_append]

/-- **A spelling that is a part of the name** tears it. -/
theorem torn_of_foldCase_ne (hn : Name.IsBare n) (hutf8 : n.IsUtf8) {e : Text × Float}
    (he : FoundIn e.1 n) (hfold : e.1.foldCase ≠ n.foldCase) :
    Torn (Shard.turn [.text n] e) := by
  obtain ⟨front, v, back, hturn, hsplit, hv, -⟩ := exists_reading_of_foundIn hn.ne_nil hutf8 he
  refine Torn.of_proper_part hturn (List.nil_append _).symm (List.append_nil _).symm
    (hsplit ▸ hn) ?_
  by_contra hwhole
  rw [not_or, not_ne_iff, not_ne_iff] at hwhole
  rw [hwhole.1, hwhole.2, List.nil_append, List.append_nil] at hsplit
  rw [hsplit] at hfold
  exact hfold hv.symm

/-! ### The first spelling that is found -/

theorem exists_first_foundIn {entries : List (Text × Float)} (h : ∃ e ∈ entries, FoundIn e.1 n) :
    ∃ before e after, entries = before ++ e :: after ∧
      (∀ f ∈ before, ¬ FoundIn f.1 n) ∧ FoundIn e.1 n := by
  -- the first entry, or the first one of the others
  induction entries with
  | nil => exact absurd h (by simp)
  | cons f entries ih =>
    by_cases hf : FoundIn f.1 n
    · exact ⟨[], f, entries, rfl, by simp, hf⟩
    · have hrest : ∃ e ∈ entries, FoundIn e.1 n :=
        ((List.exists_mem_cons_iff _ _ _).1 h).resolve_left hf
      obtain ⟨before, e, after, rfl, hbefore, he⟩ := ih hrest
      exact ⟨f :: before, e, after, rfl, List.forall_mem_cons.2 ⟨hf, hbefore⟩, he⟩

/-- **What a name evaluates to.** In brackets it has the reading that is looked up. Bare it has
that of the first listed spelling that is found in it, if this agrees with it up to letter case,
and otherwise it does not evaluate. -/
theorem evaluate_name (hn : Name.IsBare n) (hutf8 : n.IsUtf8) (hx : readings.find? n = some x)
    (mode : Precedence) :
    evaluate (bracketed n) readings mode = outcomeOf (bracketed n) x ∧
    ∃ before e after, readings.entriesLongestFirst = before ++ e :: after ∧
      (∀ f ∈ before, ¬ FoundIn f.1 n) ∧ FoundIn e.1 n ∧
      (e.1.foldCase = n.foldCase → evaluate n readings mode = outcomeOf n e.2) ∧
      (e.1.foldCase ≠ n.foldCase → ¬ Evaluates n readings mode) := by
  refine ⟨evaluate_bracketed hn hx mode, ?_⟩
  -- some spelling is found, as one that is looked up agrees with the name
  obtain ⟨e₀, he₀, hfold₀, -⟩ := Readings.exists_entry_of_find?_isBare hn hx
  have hself : FoundIn e₀.1 n := by
    have hreference : IsReference [] n [] := ⟨hn, rfl, rfl⟩
    exact ⟨[], n, [], (List.append_nil n).symm,
      hreference.occursIn hutf8 Text.isUtf8_nil hfold₀⟩
  have hlisted : e₀ ∈ readings.entriesLongestFirst :=
    readings.perm_entriesLongestFirst.mem_iff.2 he₀
  obtain ⟨before, e, after, hentries, hbefore, he⟩ := exists_first_foundIn ⟨e₀, hlisted, hself⟩
  -- the entries before this one leave the name whole, and its own turn is the first to change it
  have hshards : readings.shards n = after.foldl Shard.turn (Shard.turn [.text n] e) := by
    rw [Readings.shards, hentries, List.foldl_append,
      foldl_turn_of_not_foundIn hn.ne_nil hutf8 hbefore, List.foldl_cons]
  refine ⟨before, e, after, hentries, hbefore, he, fun hfold => ?_, fun hfold => ?_⟩
  · -- one reading is left, and the turns after it find no text
    have hsegments := segments_of_isBare hn
    refine evaluate_of_value mode ?_ ?_ ?_
    · rw [hsegments]
      exact isUnclosed_map_byte n
    · rw [hsegments]
      refine List.filter_eq_nil_iff.2 fun name hname => ?_
      obtain ⟨part, hpart, hpartName⟩ := List.mem_filterMap.1 hname
      obtain ⟨c, -, rfl⟩ := List.mem_map.1 hpart
      cases hpartName
    · rw [referencePieces_of_isBare hn, replaceEntries, ← Readings.map_piece_shards, hshards,
        turn_of_foldCase_eq hn hutf8 he hfold, map_piece_foldl_turn]
      exact foldl_replaceEntry_value after e.2
  · -- what is found is only a part of the name, and what is left of it is read as a name without
    -- value
    refine not_evaluates_of_torn (r := n) ?_ ?_
    · rw [referencePieces_of_isBare hn]
      exact List.mem_singleton_self _
    · rw [hshards]
      exact (torn_of_foldCase_ne hn hutf8 he hfold).foldl_turn after

/-- One variable in two letter cases: upper case comes first in the order of bytes. -/
theorem evaluate_name_of_two_cases :
    let readings := Readings.ofList [(utf8 "FE", 1.0), (utf8 "Fe", 2.0)]
    evaluate (utf8 "[Fe]") readings .standard = .ok 2.0 ∧
      evaluate (utf8 "Fe") readings .standard = .ok 1.0 := by
  intro readings
  have hn : Name.IsBare (utf8 "Fe") := by decide +kernel
  have hutf8 : (utf8 "Fe").IsUtf8 := ⟨_, rfl⟩
  have hx : readings.find? (utf8 "Fe") = some 2.0 := rfl
  have hentries : readings.entriesLongestFirst = [(utf8 "FE", 1.0), (utf8 "Fe", 2.0)] := rfl
  have hfound : FoundIn (utf8 "FE") (utf8 "Fe") :=
    ⟨[], utf8 "Fe", [], rfl, by decide, hutf8, Text.isUtf8_nil, by decide, by decide⟩
  obtain ⟨hbracketed, before, e, after, hsplit, hbefore, -, hvalue, -⟩ :=
    evaluate_name hn hutf8 hx .standard
  refine ⟨hbracketed.trans (by decide +kernel), ?_⟩
  rw [hentries] at hsplit
  cases before with
  | nil =>
    obtain ⟨rfl, -⟩ := List.cons.inj hsplit
    exact (hvalue (by decide)).trans (by decide +kernel)
  | cons f before =>
    obtain ⟨rfl, -⟩ := List.cons.inj hsplit
    exact absurd hfound (hbefore _ List.mem_cons_self)

end AssayRules
