import AssayRules.Proofs.Alike
import AssayRules.Validation

/-!
# What validation promises

Validation evaluates both sides of a formula over trial readings, in which every available
variable is one. Whether a text evaluates depends on no more than the spellings
(`Evaluates.congr`), so what was tried once holds for all readings of the variables that were
announced, in whatever order and how often they were recorded.
-/

namespace AssayRules

/-- **There is nothing wrong with a side** exactly if it evaluates. -/
theorem sideProblem?_eq_none_iff {readings : Readings} {side : Text} :
    sideProblem? readings side = none ↔ Evaluates side readings .standard := by
  rw [Evaluates, sideProblem?]
  -- a value that is not finite is the one failure that is let pass
  rcases evaluate_cases side readings .standard with
    ⟨tokens, value, -, -, hevaluate⟩ | ⟨failure, hevaluate, hfailure, -⟩
  · rw [hevaluate]
    by_cases hfinite : value.isFinite = true
    · rw [if_pos hfinite]
      exact iff_of_true rfl (Or.inl ⟨value, rfl, hfinite⟩)
    · rw [if_neg hfinite]
      exact iff_of_true rfl (Or.inr rfl)
  · rw [hevaluate]
    cases failure with
    | notFinite text => exact absurd rfl (hfailure text)
    | _ => exact iff_of_false (by rintro ⟨⟩) (by rintro (⟨_, h, -⟩ | h) <;> cases h)

/-- **What validation tries**: the text is a formula, its variables are available, and both
sides evaluate over trial readings. -/
theorem valid_iff {s : Text} {available : List Text} :
    (validate s available).valid = true ↔ ∃ formula, Formula.parse s = .ok formula ∧
      (∀ name ∈ formula.variableNames, (trialReadings available).contains name = true) ∧
      Evaluates formula.left (trialReadings available) .standard ∧
      Evaluates formula.right (trialReadings available) .standard := by
  rw [validate]
  -- nothing is said of a text that is no formula
  cases hparse : Formula.parse s with
  | error cause =>
    refine iff_of_false ?_ (by rintro ⟨_, h, -⟩; cases h)
    intro h
    cases h
  | ok formula =>
    have hmissing : (formula.variableNames.filter fun name =>
        !(trialReadings available).contains name).isEmpty = true ↔
          ∀ name ∈ formula.variableNames, (trialReadings available).contains name = true := by
      rw [List.isEmpty_iff, List.filter_eq_nil_iff]
      simp only [Bool.not_eq_true', Bool.not_eq_false]
    dsimp only
    rw [Formula.verdict, Verdict.valid, Option.isNone_iff_eq_none, Formula.problem?]
    dsimp only
    constructor
    · intro h
      split_ifs at h with hnone
      obtain ⟨hleft, hright⟩ := Option.or_eq_none_iff.1 h
      exact ⟨formula, rfl, hmissing.1 hnone, sideProblem?_eq_none_iff.1 hleft,
        sideProblem?_eq_none_iff.1 hright⟩
    · rintro ⟨_, hformula, hnone, hleft, hright⟩
      cases hformula
      rw [if_pos (hmissing.2 hnone), sideProblem?_eq_none_iff.2 hleft,
        sideProblem?_eq_none_iff.2 hright]
      rfl

/-- The spellings of trial readings are the canonical names that are available. -/
theorem mem_spellings_trialReadings {available : List Text} {name : Text} :
    name ∈ (trialReadings available).spellings ↔
      name ≠ [] ∧ ∃ entered ∈ available, Name.canonical entered = name := by
  rw [trialReadings, Readings.mem_spellings_ones, List.mem_filter, List.mem_map, and_comm]
  simp

/-- **What is valid evaluates**, over any readings whose spellings are the canonical names that
were available, and however tight operations bind: a side of the formula has a value, and
nothing can be wrong with it but that this is not finite. Behind it stands that readings of
the same spellings are substituted alike: for one reason in vain, or to tokens that agree in
all but the numbers that the readings have for one variable. -/
theorem evaluates_of_valid :
    (∀ s available, (validate s available).valid = true →
      ∃ formula, Formula.parse s = .ok formula ∧
        ∀ readings : Readings, (∀ name, name ∈ readings.spellings ↔
            name ≠ [] ∧ ∃ entered ∈ available, Name.canonical entered = name) →
          ∀ mode, Evaluates formula.left readings mode ∧ Evaluates formula.right readings mode) ∧
    ∀ (expression : Text) (readings other : Readings),
      (∀ name, name ∈ readings.spellings ↔ name ∈ other.spellings) →
      (∃ failure, substitute expression readings = .error failure ∧
          substitute expression other = .error failure) ∨
        ∃ tokens tokens', substitute expression readings = .ok tokens ∧
          substitute expression other = .ok tokens' ∧
          List.Forall₂ (Token.Alike (readings.Counterparts other)) tokens tokens' := by
  refine ⟨fun s available hvalid => ?_, fun expression _ _ h => substitute_alike h expression⟩
  obtain ⟨formula, hparse, -, hleft, hright⟩ := valid_iff.1 hvalid
  refine ⟨formula, hparse, fun readings hreadings mode => ?_⟩
  -- the readings have the spellings of the trial, and what evaluates depends on no more
  have hspellings : ∀ name, name ∈ (trialReadings available).spellings ↔
      name ∈ readings.spellings :=
    fun name => mem_spellings_trialReadings.trans (hreadings name).symm
  exact ⟨hleft.congr hspellings, hright.congr hspellings⟩

/-- A side that has a pole, at the very reading that is tried. -/
theorem evaluates_of_valid_of_pole :
    let readings := Readings.ofList [(utf8 "x", 3.0), (utf8 "x", 1.0)]
    let other := Readings.ofList [(utf8 "x", 2.0)]
    (validate (utf8 "1 / (x - 1) > x") [utf8 "x,", utf8 ","]).valid = true ∧
      Evaluates (utf8 "1 / (x - 1)") readings .leftToRight ∧
      ((∃ failure, substitute (utf8 "2 x") readings = .error failure ∧
          substitute (utf8 "2 x") other = .error failure) ∨
        ∃ tokens tokens', substitute (utf8 "2 x") readings = .ok tokens ∧
          substitute (utf8 "2 x") other = .ok tokens' ∧
          List.Forall₂ (Token.Alike (readings.Counterparts other)) tokens tokens') := by
  intro readings other
  have hparse : Formula.parse (utf8 "1 / (x - 1) > x")
      = .ok ⟨utf8 "1 / (x - 1)", .greater, utf8 "x", [utf8 "x"], [utf8 "x"]⟩ :=
    toOption_eq_some_iff.1 (by decide +kernel)
  have htrial : trialReadings [utf8 "x,", utf8 ","] = .ones [utf8 "x"] := rfl
  have hleft : checkArithmetic (utf8 "1 / (x - 1)") [utf8 "x"] = .ok () :=
    toOption_eq_some_iff.1 (by decide +kernel)
  have hright : checkArithmetic (utf8 "x") [utf8 "x"] = .ok () :=
    toOption_eq_some_iff.1 (by decide +kernel)
  have hvalid : (validate (utf8 "1 / (x - 1) > x") [utf8 "x,", utf8 ","]).valid = true := by
    refine valid_iff.2 ⟨_, hparse, by decide, ?_⟩
    rw [htrial]
    exact ⟨evaluates_of_checkArithmetic hleft _, evaluates_of_checkArithmetic hright _⟩
  have hreadings : readings.spellings = [utf8 "x"] := by decide
  have hother : other.spellings = [utf8 "x"] := by decide
  obtain ⟨formula, hformula, hevaluates⟩ := evaluates_of_valid.1 _ _ hvalid
  obtain rfl := Except.ok.inj (hformula.symm.trans hparse)
  refine ⟨hvalid, (hevaluates readings ?_ .leftToRight).1, evaluates_of_valid.2 _ _ _ ?_⟩
  · -- an entered name of nothing but a comma is no name
    intro name
    rw [hreadings, List.mem_singleton]
    constructor
    · rintro rfl
      exact ⟨by decide, _, List.mem_cons_self, by decide⟩
    · rintro ⟨hne, entered, hentered, rfl⟩
      rcases List.mem_cons.1 hentered with rfl | hentered
      · decide
      · rw [List.mem_singleton.1 hentered] at hne
        exact absurd (by decide) hne
  · intro name
    rw [hreadings, hother]

end AssayRules
