import AssayRules.Decimal
import AssayRules.Error
import AssayRules.Token

/-!
# Reading tokens

Text free of variables is read from left to right: blanks are skipped, `+ - * / ( )`
are tokens of one byte, and everything else has to be a decimal literal.

A **literal** is a run of digits with an optional point and more digits, or a point
and digits, and then an optional exponent. The longest literal is taken, where an `e`
that no digits follow is no exponent and is left standing; but what is left standing
directly behind a literal must not be a letter, a digit or a point, so that `2x`,
`1.2.3` and `0x10` are refused rather than read as two things.

Reading stops at the first fault and keeps the tokens before it (`Reading`), so that
`lex` says all there is to say about any text.
-/

namespace AssayRules

namespace Literal

/-- A run of digits at the front, and what follows it. -/
def digits (s : Text) : Text × Text := (s.takeWhile Ascii.isDigit, s.dropWhile Ascii.isDigit)

/-- A point and the digits behind it, if there is a point; and what follows. -/
def fraction : Text → Text × Text
  | [] => ([], [])
  | c :: rest => if c = Ascii.dot then digits rest else ([], c :: rest)

/-- The byte that opens an exponent. -/
def opensExponent (c : UInt8) : Bool := c == 0x65 || c == 0x45

/-- An exponent, if there is a complete one, and what follows; without one the
exponent is zero and nothing is read. -/
def exponent : Text → Int × Text
  | [] => (0, [])
  | c :: rest =>
    if opensExponent c then
      let (negative, unsigned) := Text.sign rest
      match digits unsigned with
      | ([], _) => (0, c :: rest)
      | (power, after) => (Text.signedValue negative power, after)
    else (0, c :: rest)

/-- Whether a literal may be followed directly by what stands here. -/
def mayEndBefore : Text → Bool
  | [] => true
  | c :: _ => !(Ascii.isAlphanum c || c == Ascii.dot)

/-- **The literal at the front of a text**, and what follows it. A fault quotes the
literal and the byte that must not follow it. -/
def read (s : Text) : Except Malformed (Decimal × Text) :=
  let (whole, s₁) := digits s
  let (part, s₂) := fraction s₁
  let (power, s₃) := exponent s₂
  if whole.isEmpty && part.isEmpty then .error .digitsMissing
  else if mayEndBefore s₃ then .ok (.ofDigits whole part power, s₃)
  else .error (.numberRunsOn (s.take (s.length - s₃.length + 1)))

/-! ### A literal is not empty -/

theorem length_digits (s : Text) : (digits s).1.length + (digits s).2.length = s.length := by
  rw [← List.length_append, digits, List.takeWhile_append_dropWhile]

theorem length_fraction (s : Text) :
    (fraction s).1.length + (fraction s).2.length ≤ s.length := by
  unfold fraction
  split
  · simp
  · split
    · have := length_digits ‹Text›
      simp only [List.length_cons]
      omega
    · simp

theorem length_exponent (s : Text) : (exponent s).2.length ≤ s.length := by
  unfold exponent
  split
  · simp
  · rename_i c rest
    split
    · have hs := Text.length_sign rest
      have hd := length_digits (Text.sign rest).2
      dsimp only
      split
      · simp
      · rename_i power after _ h
        rw [h] at hd
        simp only [List.length_cons]
        dsimp only at hd ⊢
        omega
    · simp

/-- What follows a literal is shorter than the text it stands in. -/
theorem length_lt_of_read {s after : Text} {d : Decimal} (h : read s = .ok (d, after)) :
    after.length < s.length := by
  have h₁ := length_digits s
  have h₂ := length_fraction (digits s).2
  have h₃ := length_exponent (fraction (digits s).2).2
  simp only [read] at h
  split at h
  · cases h
  · rename_i hne
    split at h
    · simp only [Except.ok.injEq, Prod.mk.injEq] at h
      rw [← h.2]
      simp only [Bool.and_eq_true, List.isEmpty_iff, not_and] at hne
      rcases Nat.eq_zero_or_pos (digits s).1.length with h0 | h0
      · have := List.length_pos_iff.2 (hne (List.length_eq_zero_iff.1 h0))
        omega
      · omega
    · cases h

end Literal

/-- **The outcome of reading**: the tokens read, and the fault that ended it, if one
did. -/
structure Reading where
  /-- The tokens before the end or the fault. -/
  tokens : List Token
  /-- What is wrong behind those tokens. -/
  fault? : Option Malformed
deriving DecidableEq, Repr

namespace Reading

/-- Nothing is left to read. -/
def done : Reading := ⟨[], none⟩

/-- Nothing could be read. -/
def fault (cause : Malformed) : Reading := ⟨[], some cause⟩

/-- One more token in front. -/
def cons (token : Token) (reading : Reading) : Reading :=
  { reading with tokens := token :: reading.tokens }

/-- The tokens, if all of the text could be read. -/
def toExcept (reading : Reading) : Except Malformed (List Token) :=
  match reading.fault? with
  | none => .ok reading.tokens
  | some cause => .error cause

end Reading

/-- **Reading all tokens of a text**, up to its end or its first fault. -/
def lex (s : Text) : Reading :=
  match _h : s.dropWhile Ascii.isSpace with
  | [] => .done
  | c :: rest =>
    match Token.ofByte? c with
    | some token => (lex rest).cons token
    | none =>
      if Ascii.isDigit c || c == Ascii.dot then
        match _hr : Literal.read (c :: rest) with
        | .error cause => .fault cause
        | .ok (d, after) => (lex after).cons (.number d.toFloat)
      else .fault (.unexpected c)
termination_by s.length
decreasing_by
  all_goals have hs := (List.dropWhile_suffix Ascii.isSpace (l := s)).length_le
  all_goals rw [_h, List.length_cons] at hs
  · omega
  · have hr := Literal.length_lt_of_read _hr
    rw [List.length_cons] at hr
    omega

end AssayRules
