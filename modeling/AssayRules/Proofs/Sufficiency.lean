import AssayRules.Proofs.Settled

/-!
# How far the check of a formula carries

A formula is kept if both of its sides are arithmetic over their own variables, each taken to be
one. When it is evaluated there are other spellings as well, and these are looked for in its
text like any other. So the check alone does not carry over to all readings
(`not_evaluates_of_misfits`): a spelling may be found in a number, or take a part of
a longer name that is written in fewer bytes, or not be a character as the text has it.

It carries over to readings that **fit** (`Readings.Fits`): names are found within references
only, and one that is found in a longer reference has its turn after it. Both runs then settle
every run of the text, the trial because it ended well and the other as each reference that was
replaced there is recorded here (`settled_shards_of_fits`). So what is left of the text is the
same in both, and it evaluates (`evaluates_sides_of_parse`).
-/

namespace AssayRules

open Shard

variable {readings other : Readings} {side : Text} {names : List Text}

/-! ### Two readings that settle every run -/

/-- Pieces that are alike become pieces that are alike, if both readings settle their texts. -/
theorem replaceEntries_alike {pieces pieces' : List Piece}
    (h : List.Forall₂ (Piece.Alike fun _ _ => True) pieces pieces')
    (hsettled : ∀ r, .text r ∈ pieces → Settled (readings.shards r) ∧ Settled (other.shards r)) :
    List.Forall₂ (Piece.Alike fun _ _ => True) (replaceEntries readings pieces)
      (replaceEntries other pieces') := by
  rw [replaceEntries, replaceEntries, foldl_replaceEntry_eq_flatMap, foldl_replaceEntry_eq_flatMap]
  -- piece by piece: both sets of readings cut a text in the same way, and leave values alone
  induction h with
  | nil => exact .nil
  | cons hpiece _ ih =>
    rw [List.flatMap_cons, List.flatMap_cons]
    refine List.rel_append ?_ (ih fun r hr => hsettled r (List.mem_cons_of_mem _ hr))
    cases hpiece with
    | value h =>
      rw [foldl_replaceEntry_value, foldl_replaceEntry_value]
      exact .cons (.value h) .nil
    | text r =>
      obtain ⟨hr, hr'⟩ := hsettled r List.mem_cons_self
      rw [← Readings.map_piece_shards, ← Readings.map_piece_shards]
      exact hr.alike hr' ((Readings.sources_shards _ r).trans (Readings.sources_shards _ r).symm)

/-- **An expression whose runs are settled** by two readings evaluates over both. -/
theorem Evaluates.of_settled {mode mode' : Precedence} (h : Evaluates side readings mode)
    (hmissing : missingReferences other (segments side) = [])
    (hsettled : ∀ r, .text r ∈ referencePieces readings (segments side) →
      Settled (readings.shards r) ∧ Settled (other.shards r)) : Evaluates side other mode' := by
  obtain ⟨_, hsubstitute, hexpression⟩ := evaluates_iff.1 h
  obtain ⟨hclosed, hfound, hnames, ts, hts, rfl⟩ := substitute_eq_ok_iff.1 hsubstitute
  have halike := replaceEntries_alike (referencePieces_alike hclosed hfound hmissing) hsettled
  rw [Piece.Alike.bareNames halike] at hnames
  rw [takeWhile_append_stop hts] at hexpression
  -- with no name left, the tokens are the same but for the values of the readings
  rcases Piece.Alike.pieceTokens halike with ⟨cause, hcause, -⟩ | ⟨us, us', hus, hus', htokens⟩
  · rw [hts] at hcause
    cases hcause
  · obtain rfl := Except.ok.inj (hts.symm.trans hus)
    refine evaluates_iff.2
      ⟨_, substitute_eq_ok_iff.2 ⟨hclosed, hmissing, hnames, us', hus', rfl⟩, ?_⟩
    rw [takeWhile_append_stop hus']
    exact Token.Alike.isExpression htokens hexpression

/-! ### Readings that fit -/

/-- **Readings fit a side** with the variables `names`, if names are found in it within
references only. -/
structure Readings.Fits (readings : Readings) (side : Text) (names : List Text) : Prop where
  utf8 : ∀ name ∈ readings.spellings, name.IsUtf8
  /-- The variables of the side itself are the ones that the check looks for. -/
  own : ∀ name ∈ names, ∀ r ∈ runs (segments side), FoundWithin (fun _ => True) name r
  /-- A recorded spelling agrees with the reference it is found in, or that is taken first. -/
  recorded : ∀ name ∈ readings.spellings, ∀ r ∈ runs (segments side),
    FoundWithin (fun y => y.foldCase = name.foldCase ∨ readings.Anticipates name y) name r

/-- Over readings of all variables no reference is missing. -/
theorem missingReferences_eq_nil (hnames : references side = .ok names)
    (htrial : missingReferences (.ones names) (segments side) = [])
    (hcontains : ∀ name ∈ names, readings.contains name = true) :
    missingReferences readings (segments side) = [] := by
  refine List.filter_eq_nil_iff.2 fun name hname => ?_
  have hfound := List.filter_eq_nil_iff.1 htrial name hname
  obtain ⟨part, hpart, hpartName⟩ := List.mem_filterMap.1 hname
  rw [Bool.not_eq_true, Bool.not_eq_false'] at hfound ⊢
  cases part with
  | reference inside =>
    -- a reference of the side is one of its variables, if its name is not empty
    obtain rfl := Option.some.inj hpartName
    refine hcontains _ ((mem_references_iff_refers hnames).2 ⟨?_, Or.inl ⟨inside, hpart, rfl⟩⟩)
    -- the empty name is no variable, and so the trial has no reading for it
    intro hnil
    rw [hnil] at hfound
    obtain ⟨spelling, hspelling, heq⟩ := Readings.contains_iff.1 hfound
    have hne := ((mem_references_iff_refers hnames).1 (Readings.mem_spellings_ones.1 hspelling)).1
    rw [Name.canonical_nil, or_self_left] at heq
    exact heq.elim hne fun hfold => Text.foldCase_ne_nil hne hfold
  | _ => cases hpartName

/-- **A variable that agrees with a bare name** is recorded up to letter case if it has a
reading. -/
theorem exists_spelling_of_contains {name y : Text} (hname : name.IsUtf8) (hy : y.IsUtf8)
    (hbare : Name.IsBare y) (hfold : name.foldCase = y.foldCase)
    (hcontains : readings.contains name = true) :
    ∃ spelling ∈ readings.spellings, spelling.foldCase = y.foldCase := by
  -- the name agrees with a bare one, so it has no blanks or commas to lose
  have hcanonical : Name.canonical name = name := by
    refine Name.canonical_eq_of_isWord ?_ ?_
    · rw [← Caseless.isWord.any_head?_foldCase hname, hfold, Caseless.isWord.any_head?_foldCase hy]
      exact hbare.isWord_head
    · rw [← Caseless.isWord.any_getLast?_foldCase hname, hfold,
        Caseless.isWord.any_getLast?_foldCase hy]
      exact hbare.isWord_getLast
  obtain ⟨spelling, hspelling, heq⟩ := Readings.contains_iff.1 hcontains
  rw [hcanonical] at heq
  refine ⟨spelling, hspelling, ?_⟩
  -- the three ways to answer, each with a spelling that agrees
  rcases heq with rfl | rfl | heq
  · exact hfold
  · exact hfold
  · exact heq.trans hfold

/-- **Both runs settle** what stands outside the brackets of a side: the one with trial readings,
and the one with readings that fit. -/
theorem settled_shards_of_fits (hside : side.IsUtf8) (hnames : references side = .ok names)
    (hcheck : checkArithmetic side names = .ok ())
    (hcontains : ∀ name ∈ names, readings.contains name = true)
    (hfits : readings.Fits side names) {r : Text}
    (hr : .text r ∈ referencePieces (.ones names) (segments side)) :
    Settled ((Readings.ones names).shards r) ∧ Settled (readings.shards r) := by
  have htrial := evaluates_of_checkArithmetic hcheck .standard
  obtain ⟨_, hsubstitute, -⟩ := evaluates_iff.1 htrial
  obtain ⟨hclosed, hfound, hleft, -⟩ := substitute_eq_ok_iff.1 hsubstitute
  obtain ⟨hrun, hne⟩ := mem_runs_of_mem_referencePieces hclosed hfound hr
  have hutf8 : r.IsUtf8 := hside.of_mem_runs hrun
  have hutf8Names := hside.of_mem_references hnames
  have hsettled : Settled ((Readings.ones names).shards r) := by
    -- the trial went through, so nothing was torn in it
    refine Readings.settled_of_not_torn hne hutf8 (fun name hname => ?_) ?_ fun htorn =>
      not_evaluates_of_torn hr htorn htrial
    · have hname := Readings.mem_spellings_ones.1 hname
      exact ⟨hutf8Names name hname, hfits.own name hname r hrun⟩
    · obtain ⟨pieces, others, hsplit⟩ := List.append_of_mem hr
      rw [replaceEntries, foldl_replaceEntry_eq_flatMap, hsplit, List.flatMap_append,
        List.flatMap_cons, List.flatMap_append, List.flatMap_append, List.append_eq_nil_iff,
        List.append_eq_nil_iff, ← Readings.map_piece_shards] at hleft
      exact hleft.2.1
  refine ⟨hsettled, Readings.settled_of_anticipates hne hutf8
    (fun name hname => ⟨hfits.utf8 name hname, hfits.recorded name hname r hrun⟩) ?_⟩
  -- a reference was replaced in the trial, so it agrees with a variable, which has a reading
  intro a y b hsplit hy
  obtain ⟨front, x, back, hshards, rfl⟩ :=
    hsettled.exists_reading ((Readings.sources_shards _ r).trans hsplit) hy
  obtain ⟨-, name, hname, hoccurs⟩ := Readings.occursIn_of_shards hne hutf8
    (fun name hname => hutf8Names name (Readings.mem_spellings_ones.1 hname)) hshards
  have hname := Readings.mem_spellings_ones.1 hname
  exact exists_spelling_of_contains (hutf8Names _ hname) hoccurs.divides hy.isBare
    hoccurs.key_eq.symm (hcontains _ hname)

/-- **What the check accepts evaluates** over all readings that fit. -/
theorem evaluates_of_fits (hside : side.IsUtf8) (hnames : references side = .ok names)
    (hcheck : checkArithmetic side names = .ok ())
    (hcontains : ∀ name ∈ names, readings.contains name = true)
    (hfits : readings.Fits side names) (mode : Precedence) : Evaluates side readings mode := by
  have htrial := evaluates_of_checkArithmetic hcheck .standard
  obtain ⟨_, hsubstitute, -⟩ := evaluates_iff.1 htrial
  obtain ⟨-, hfound, -⟩ := substitute_eq_ok_iff.1 hsubstitute
  exact htrial.of_settled (missingReferences_eq_nil hnames hfound hcontains) fun r hr =>
    settled_shards_of_fits hside hnames hcheck hcontains hfits hr

/-! ### Formulas -/

/-- **The check of a formula suffices** for readings that fit: if every variable has a reading,
both sides evaluate, whichever operations bind tighter. -/
theorem evaluates_sides_of_parse {s : Text} (hs : s.IsUtf8) {formula : Formula}
    (hformula : Formula.parse s = .ok formula)
    (hcontains : ∀ name ∈ formula.variableNames, readings.contains name = true)
    (hleft : readings.Fits formula.left formula.leftVariables)
    (hright : readings.Fits formula.right formula.rightVariables) (mode : Precedence) :
    Evaluates formula.left readings mode ∧ Evaluates formula.right readings mode := by
  -- each side is checked by itself, and its variables are among those of the formula
  obtain ⟨hutf8, hutf8'⟩ := Formula.isUtf8_sides hs hformula
  obtain ⟨⟨hnames, hcheck⟩, hnames', hcheck'⟩ := Formula.checked_of_parse hformula
  exact ⟨evaluates_of_fits hutf8 hnames hcheck
      (fun name hname => hcontains name (Formula.mem_variableNames.2 (Or.inl hname))) hleft mode,
    evaluates_of_fits hutf8' hnames' hcheck'
      (fun name hname => hcontains name (Formula.mem_variableNames.2 (Or.inr hname))) hright mode⟩

/-- A name that is part of another, which is recorded in another letter case. -/
theorem evaluates_sides_of_parse_of_nested_names :
    let readings := Readings.ofList [(utf8 "Fe", 2.0), (utf8 "Zn", 1.0), (utf8 "FE TOTAL", 3.0),
      (utf8 "x", 0.0)]
    Evaluates (utf8 "Fe total / Fe") readings .leftToRight ∧
      Evaluates (utf8 "1 / [x]") readings .leftToRight := by
  intro readings
  have hparse : Formula.parse (utf8 "Fe total / Fe > 1 / [x]") = .ok ⟨utf8 "Fe total / Fe",
      .greater, utf8 "1 / [x]", [utf8 "Fe total", utf8 "Fe"], [utf8 "x"]⟩ :=
    toOption_eq_some_iff.1 (by decide +kernel)
  have hascii : ∀ name ∈ readings.spellings, ∀ c ∈ name, c < 0x80 := by decide +kernel
  have hutf8 : ∀ name ∈ readings.spellings, name.IsUtf8 :=
    fun name hname => Text.isUtf8_of_ascii (hascii name hname)
  -- whether names are found within references only can be computed
  have hown : ∀ name ∈ [utf8 "Fe total", utf8 "Fe"],
      ∀ r ∈ runs (segments (utf8 "Fe total / Fe")),
        foundWithin (fun _ => decide True) name r = true := by decide +kernel
  have hown' : ∀ name ∈ [utf8 "x"], ∀ r ∈ runs (segments (utf8 "1 / [x]")),
      foundWithin (fun _ => decide True) name r = true := by decide +kernel
  have hrecorded : ∀ name ∈ readings.spellings,
      ∀ r ∈ runs (segments (utf8 "Fe total / Fe")) ++ runs (segments (utf8 "1 / [x]")),
        foundWithin (fun y => decide (y.foldCase = name.foldCase ∨ readings.Anticipates name y))
          name r = true := by decide +kernel
  refine evaluates_sides_of_parse ⟨_, rfl⟩ hparse (by decide +kernel) ⟨hutf8, ?_, ?_⟩
    ⟨hutf8, ?_, ?_⟩ .leftToRight
  · exact fun name hname r hr => foundWithin_of_eq_true (hown name hname r hr)
  · exact fun name hname r hr =>
      foundWithin_of_eq_true (hrecorded name hname r (List.mem_append_left _ hr))
  · exact fun name hname r hr => foundWithin_of_eq_true (hown' name hname r hr)
  · exact fun name hname r hr =>
      foundWithin_of_eq_true (hrecorded name hname r (List.mem_append_right _ hr))

/-- **Readings do not suffice for a formula**: the variables all have one, and still its left
side fails for another reason than its value. -/
def Misfit (s : Text) (readings : Readings) (failure : ExpressionError) : Prop :=
  ∃ formula, Formula.parse s = .ok formula ∧
    (∀ name ∈ formula.variableNames, readings.contains name = true) ∧
    evaluate formula.left readings .standard = .error failure ∧
    ∀ text, failure ≠ .notFinite text

/-- **The check by itself does not suffice**, though every variable has a reading: a spelling is
found in a number; one of more bytes has its turn before the name in which it is found; a
variable is looked for as it is written in brackets, and recorded without its comma; a name is
missed in another letter case where the text is not UTF-8; and a spelling that is not UTF-8
stands alone when what is around it is gone. -/
theorem not_evaluates_of_misfits :
    Misfit (utf8 "1.5 > 0") (.ones [utf8 "5"]) (.malformed .operatorMissing) ∧
    Misfit (utf8 "a iii > 0") (.ones [utf8 "a iii", utf8 "İİİ"]) (.unresolved [utf8 "a"]) ∧
    Misfit (utf8 "[x, ,] * x, > 0") (.ones [utf8 "x"]) (.malformed (.unexpected Ascii.comma)) ∧
    Misfit (utf8 "x" ++ [0xC3] ++ utf8 " + 1 > 0") (.ones [utf8 "X" ++ [0xC3]])
      (.unresolved [utf8 "x" ++ [0xC3]]) ∧
    Misfit (utf8 "aaa+bbb > 0") (.ones [utf8 "aaa", utf8 "bbb", [0xC0, 0xAB]])
      (.malformed .operatorMissing) := by
  refine ⟨⟨⟨utf8 "1.5", .greater, utf8 "0", [], []⟩, ?_⟩,
    ⟨⟨utf8 "a iii", .greater, utf8 "0", [utf8 "a iii"], []⟩, ?_⟩,
    ⟨⟨utf8 "[x, ,] * x,", .greater, utf8 "0", [utf8 "x,", utf8 "x"], []⟩, ?_⟩,
    ⟨⟨utf8 "x" ++ [0xC3] ++ utf8 " + 1", .greater, utf8 "0", [utf8 "x" ++ [0xC3]], []⟩, ?_⟩,
    ⟨⟨utf8 "aaa+bbb", .greater, utf8 "0", [utf8 "aaa", utf8 "bbb"], []⟩, ?_⟩⟩ <;>
  · refine ⟨toOption_eq_some_iff.1 ?_, ?_, ?_, by simp⟩ <;> decide +kernel

end AssayRules
