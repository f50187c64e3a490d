import AssayRules.Proofs.Checking

/-!
# What evaluates

Evaluating may go wrong in two ways that differ in kind. The text may be at fault, and then no
other numbers would help; or there is a value, which is not finite. A text **evaluates** if
only the second can happen (`Evaluates`).

That is a matter of the tokens being an expression (`evaluates_iff`), so it does not depend on
how tight operations bind. What is read from text never says by itself that it is a sign
(`of_mem_tokens_lex`), which is why a text that passes the check of arithmetic evaluates over
readings of its own names (`evaluates_of_checkArithmetic`).
-/

namespace AssayRules

variable {readings : Readings}

/-- **An expression evaluates** if it has a finite value, or fails by not having one. -/
def Evaluates (expression : Text) (readings : Readings) (mode : Precedence) : Prop :=
  (∃ value, evaluate expression readings mode = .ok value ∧ value.isFinite = true) ∨
    evaluate expression readings mode = .error (.notFinite expression)

/-- **What evaluating does**: tokens with a value are asked whether that is finite, and
without such tokens there is a failure of another kind. -/
theorem evaluate_cases (expression : Text) (readings : Readings) (mode : Precedence) :
    (∃ tokens value, substitute expression readings = .ok tokens ∧
        evaluateTokens mode tokens = .ok value ∧ evaluate expression readings mode
          = if value.isFinite then .ok value else .error (.notFinite expression)) ∨
      ∃ failure, evaluate expression readings mode = .error failure ∧
        (∀ text, failure ≠ .notFinite text) ∧
        ∀ tokens, substitute expression readings = .ok tokens →
          ∃ cause, evaluateTokens mode tokens = .error cause := by
  rw [evaluate]
  -- on the two steps in turn, of which only the question after them has the failure set apart
  cases hsubstitute : substitute expression readings with
  | error failure =>
    refine Or.inr ⟨failure, rfl, ?_, by simp⟩
    rintro text rfl
    exact substitute_ne_notFinite _ _ _ hsubstitute
  | ok tokens =>
    dsimp only
    cases hvalue : evaluateTokens mode tokens with
    | error cause =>
      refine Or.inr ⟨.malformed cause, rfl, by simp, ?_⟩
      rintro _ ⟨⟩
      exact ⟨cause, hvalue⟩
    | ok value => exact Or.inl ⟨tokens, value, rfl, hvalue, rfl⟩

/-- **What evaluates** are the texts whose tokens are an expression. -/
theorem evaluates_iff {expression : Text} {mode : Precedence} :
    Evaluates expression readings mode ↔ ∃ tokens, substitute expression readings = .ok tokens ∧
      IsExpression (tokens.takeWhile (· != .stop)) := by
  rw [Evaluates]
  rcases evaluate_cases expression readings mode with
    ⟨tokens, value, htokens, hvalue, hevaluate⟩ | ⟨failure, hevaluate, hfailure, hnone⟩
  · -- where the tokens have a value, they are an expression, be the value finite or not
    refine iff_of_true ?_ ⟨tokens, htokens, ?_⟩
    · rw [hevaluate]
      by_cases hfinite : value.isFinite = true
      · exact Or.inl ⟨value, if_pos hfinite, hfinite⟩
      · exact Or.inr (if_neg hfinite)
    · obtain ⟨program, hprogram, hrun⟩ := bind_eq_ok_iff.1 hvalue
      exact Program.isExpression_of_ofTokens_eq_ok
        (Program.isSignToken_eq_false_of_run_eq_ok hprogram hrun) hprogram
  · rw [hevaluate]
    refine iff_of_false ?_ ?_
    · rintro (⟨_, h, -⟩ | h)
      · cases h
      · exact hfailure _ (Except.error.inj h)
    · -- an expression would have a value
      rintro ⟨tokens, htokens, hexpression⟩
      obtain ⟨e, he⟩ := mode.exists_parses hexpression
      obtain ⟨cause, hcause⟩ := hnone tokens htokens
      rw [evaluateTokens_of_parses he] at hcause
      cases hcause

/-- What does not evaluate fails for another reason than its value. -/
theorem not_evaluates_iff {expression : Text} {mode : Precedence} :
    ¬ Evaluates expression readings mode ↔ ∃ failure,
      evaluate expression readings mode = .error failure ∧
        ∀ text, failure ≠ .notFinite text := by
  rw [Evaluates]
  rcases evaluate_cases expression readings mode with
    ⟨tokens, value, -, -, hevaluate⟩ | ⟨failure, hevaluate, hfailure, -⟩
  · -- a value that is not finite is a failure, but the one that is set apart
    rw [hevaluate]
    by_cases hfinite : value.isFinite = true
    · rw [if_pos hfinite]
      exact iff_of_false (not_not.2 (Or.inl ⟨value, rfl, hfinite⟩)) (by rintro ⟨_, h, -⟩; cases h)
    · rw [if_neg hfinite]
      refine iff_of_false (not_not.2 (Or.inr rfl)) ?_
      rintro ⟨_, h, hfailure⟩
      exact hfailure _ (Except.error.inj h).symm
  · rw [hevaluate]
    refine iff_of_true ?_ ⟨failure, rfl, hfailure⟩
    rintro (⟨_, h, -⟩ | h)
    · cases h
    · exact hfailure _ (Except.error.inj h)

/-! ### Being arithmetic -/

/-- What is read from text is no end mark, and does not say by itself that it is a sign. -/
theorem of_mem_tokens_lex {s : Text} {token : Token} (h : token ∈ (lex s).tokens) :
    token ≠ .stop ∧ Arrangement.isSignToken token = false := by
  -- token by token, as neither symbols nor literals are of these kinds
  fun_induction lex s with
  | case1 => cases h
  | case2 s c rest _ other hother ih =>
    rcases List.mem_cons.1 h with rfl | h
    · exact Lexeme.of_mem_symbols _ (Token.ofByte?_eq_some_iff.1 hother)
    · exact ih h
  | case3 => cases h
  | case4 s c rest _ _ _ d after _ ih =>
    rcases List.mem_cons.1 h with rfl | h
    · exact ⟨by simp, rfl⟩
    · exact ih h
  | case5 => cases h

theorem of_mem_pieceTokens {pieces : List Piece} {ts : List Token}
    (hts : pieceTokens pieces = .ok ts) {token : Token} (h : token ∈ ts) :
    token ≠ .stop ∧ Arrangement.isSignToken token = false := by
  -- piece by piece, where a value is one number
  induction pieces generalizing ts with
  | nil =>
    cases hts
    cases h
  | cons piece pieces ih =>
    obtain ⟨front, others, hfront, hothers, rfl⟩ := pieceTokens_cons_eq_ok.1 hts
    rcases List.mem_append.1 h with h | h
    · cases piece with
      | text s =>
        have hlex := Reading.eq_of_toExcept_eq_ok hfront
        refine of_mem_tokens_lex (s := s) ?_
        rw [hlex]
        exact h
      | value x =>
        cases hfront
        rw [List.mem_singleton.1 h]
        exact ⟨by simp, rfl⟩
    · exact ih hothers h

/-- Up to the end mark, the tokens of an expression are those of its pieces. -/
theorem takeWhile_append_stop {pieces : List Piece} {ts : List Token}
    (hts : pieceTokens pieces = .ok ts) : (ts ++ [Token.stop]).takeWhile (· != .stop) = ts := by
  rw [List.takeWhile_append_of_pos fun token h => bne_iff_ne.2 (of_mem_pieceTokens hts h).1]
  exact List.append_nil _

/-- **What is arithmetic evaluates** over readings of its names. -/
theorem evaluates_of_checkArithmetic {s : Text} {names : List Text}
    (h : checkArithmetic s names = .ok ()) (mode : Precedence) :
    Evaluates s (.ones names) mode := by
  obtain ⟨_, program, hsubstitute, hprogram⟩ := checkArithmetic_eq_ok_iff.1 h
  obtain ⟨-, -, -, ts, hts, rfl⟩ := substitute_eq_ok_iff.1 hsubstitute
  refine evaluates_iff.2 ⟨_, hsubstitute, Program.isExpression_of_ofTokens_eq_ok ?_ hprogram⟩
  rw [takeWhile_append_stop hts]
  exact fun token hmem => (of_mem_pieceTokens hts hmem).2

end AssayRules
