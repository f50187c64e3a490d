import AssayRules.Proofs.Grammar
import AssayRules.Proofs.Names
import AssayRules.Proofs.Rounding
import AssayRules.Reference
import AssayRules.Token.Lexer
import Mathlib.Data.List.Induction

/-!
# Expressions as they are written

The grammar of arithmetic is one of tokens, and users write text. Between the two stand
**lexemes**: blanks, symbols, decimal literals and references, bare or in brackets. A text
derives from the grammar if it is a row of lexemes whose tokens do
(`Lexeme.IsArithmetic`), whatever the references stand for.

A lexeme carries what makes it one, so that every row of lexemes has a text; but not every
row is found in its text again, as `2` and `x` in a row are written like `2x`. What keeps
lexemes apart is the grammar. It never puts two operands side by side, with or without
blanks between them, and that is all the reading of lexemes from text depends on
(`Spaced`).
-/

namespace AssayRules

/-! ### Decimal literals -/

/-- **The exponent of a literal**: its letter, perhaps a sign, and digits. -/
structure Exponent where
  letter : UInt8
  sign? : Option UInt8
  digits : Text
  opens : Literal.opensExponent letter = true
  isSign : ∀ c ∈ sign?, c = Ascii.plus ∨ c = Ascii.minus
  allDigits : ∀ c ∈ digits, Ascii.isDigit c = true
  digits_ne_nil : digits ≠ []

namespace Exponent

def text (e : Exponent) : Text := e.letter :: (e.sign?.toList ++ e.digits)

def value (e : Exponent) : Int :=
  Text.signedValue (e.sign? == some Ascii.minus) e.digits

end Exponent

/-- **A figure**: a decimal literal as it is read. There is a digit on some side of the
point, and an exponent may stand directly behind the point. -/
structure Figure where
  whole : Text
  fraction? : Option Text
  exponent? : Option Exponent
  wholeDigits : ∀ c ∈ whole, Ascii.isDigit c = true
  fractionDigits : ∀ part ∈ fraction?, ∀ c ∈ part, Ascii.isDigit c = true
  hasDigit : whole ≠ [] ∨ fraction?.getD [] ≠ []

namespace Figure

/-- The point and the digits behind it. -/
def point (f : Figure) : Text := f.fraction?.elim [] fun part => Ascii.dot :: part

def text (f : Figure) : Text := f.whole ++ f.point ++ f.exponent?.elim [] Exponent.text

def decimal (f : Figure) : Decimal :=
  .ofDigits f.whole (f.fraction?.getD []) (f.exponent?.elim 0 Exponent.value)

end Figure

/-- **A decimal literal**: digits, perhaps a point with digits, perhaps an exponent. There is
a digit on some side of the point, and no exponent stands directly behind the point. -/
structure Numeral where
  whole : Text
  fraction? : Option Text
  exponent? : Option Exponent
  wholeDigits : ∀ c ∈ whole, Ascii.isDigit c = true
  fractionDigits : ∀ part ∈ fraction?, ∀ c ∈ part, Ascii.isDigit c = true
  hasDigit : whole ≠ [] ∨ fraction?.getD [] ≠ []
  pointBeforeDigit : exponent?.isSome = true → fraction? ≠ some []

namespace Numeral

def text (n : Numeral) : Text :=
  n.whole ++ (n.fraction?.elim [] fun part => Ascii.dot :: part)
    ++ n.exponent?.elim [] Exponent.text

/-- A run of digits as a literal. -/
def ofDigits (digits : Text) (hne : digits ≠ []) (h : digits.all Ascii.isDigit = true) :
    Numeral where
  whole := digits
  fraction? := none
  exponent? := none
  wholeDigits := List.all_eq_true.1 h
  fractionDigits := by simp
  hasDigit := Or.inl hne
  pointBeforeDigit := by simp

def decimal (n : Numeral) : Decimal :=
  .ofDigits n.whole (n.fraction?.getD []) (n.exponent?.elim 0 Exponent.value)

end Numeral

/-- A literal of the grammar is a figure. -/
def Numeral.figure (n : Numeral) : Figure where
  whole := n.whole
  fraction? := n.fraction?
  exponent? := n.exponent?
  wholeDigits := n.wholeDigits
  fractionDigits := n.fractionDigits
  hasDigit := n.hasDigit

@[simp] theorem Numeral.text_figure (n : Numeral) : n.figure.text = n.text := rfl

@[simp] theorem Numeral.decimal_figure (n : Numeral) : n.figure.decimal = n.decimal := rfl

/-! ### The value of a literal -/

/-- **The number that a figure writes**: its digits before and behind the point, times a power
of ten. -/
def Figure.value (f : Figure) : ℚ :=
  (Text.digitsValue f.whole
      + Text.digitsValue (f.fraction?.getD []) / 10 ^ (f.fraction?.getD []).length)
    * 10 ^ (f.exponent?.elim 0 Exponent.value)

theorem Text.digitsValue_append (s t : Text) :
    digitsValue (s ++ t) = digitsValue s * 10 ^ t.length + digitsValue t := by
  induction t using List.reverseRecOn with
  | nil => simp [digitsValue]
  | append_singleton t c ih =>
    have hlast : ∀ u : Text, digitsValue (u ++ [c]) = 10 * digitsValue u + Ascii.digitValue c :=
      fun u => by rw [digitsValue, List.foldl_append]; rfl
    rw [← List.append_assoc, hlast, hlast, ih, List.length_append, List.length_singleton, pow_succ]
    ring

theorem Decimal.value_ofDigits (whole part : Text) (exponent : ℤ) :
    (ofDigits whole part exponent).value =
      (Text.digitsValue whole + Text.digitsValue part / 10 ^ part.length : ℚ) * 10 ^ exponent := by
  rw [value, ofDigits, Text.digitsValue_append, zpow_sub₀ (by norm_num), zpow_natCast]
  push_cast
  field_simp

/-- **A figure is read as the nearest double.** -/
theorem Figure.roundsTo_toFloat (f : Figure) : RoundsTo f.value f.decimal.toFloat := by
  have h := f.decimal.roundsTo_toFloat
  rwa [decimal, Decimal.value_ofDigits] at h

theorem Figure.eq_toFloat {f : Figure} {x : Float} (h : RoundsTo f.value x) :
    x = f.decimal.toFloat := h.unique f.roundsTo_toFloat

/-! ### Lexemes -/

/-- **The symbols** of arithmetic, and the tokens that they are. -/
def Token.symbols : List (UInt8 × Token) :=
  (utf8 "+-*/()").zip [.operator .add, .operator .subtract, .operator .multiply, .operator .divide,
    .leftParen, .rightParen]

theorem Token.symbols_eq : symbols = [(0x2B, .operator .add), (0x2D, .operator .subtract),
    (0x2A, .operator .multiply), (0x2F, .operator .divide), (0x28, .leftParen),
    (0x29, .rightParen)] := rfl

/-- No symbol goes on with a name, and none is a blank. -/
theorem Token.continuesName_symbols :
    ∀ symbol ∈ symbols, Name.continuesName symbol.1 = false ∧ Ascii.isSpace symbol.1 = false := by
  decide

theorem Token.symbols_ne_number {c : UInt8} {token : Token} (h : (c, token) ∈ symbols)
    (x : Float) : token ≠ .number x := by
  rintro rfl
  simp [symbols_eq] at h

theorem Token.ofByte?_eq_some_iff {c : UInt8} {token : Token} :
    ofByte? c = some token ↔ (c, token) ∈ symbols := by
  rw [symbols_eq]
  -- there are six bytes to ask for on the one side, and six symbols on the other
  constructor
  · intro h
    unfold ofByte? at h
    split_ifs at h with h₁ h₂ h₃ h₄ h₅ h₆ <;> subst_vars <;> simp_all
  · intro h
    simp only [List.mem_cons, List.not_mem_nil, or_false, Prod.mk.injEq] at h
    rcases h with ⟨rfl, rfl⟩ | ⟨rfl, rfl⟩ | ⟨rfl, rfl⟩ | ⟨rfl, rfl⟩ | ⟨rfl, rfl⟩ | ⟨rfl, rfl⟩
    all_goals rfl

theorem Token.ofByte?_eq_none_iff {c : UInt8} :
    ofByte? c = none ↔ ∀ symbol ∈ symbols, c ≠ symbol.1 := by
  rw [Option.eq_none_iff_forall_ne_some]
  constructor
  · rintro h ⟨_, token⟩ hmem rfl
    exact h token (ofByte?_eq_some_iff.2 hmem)
  · rintro h token hbyte
    exact h _ (ofByte?_eq_some_iff.1 hbyte) rfl

/-- **A lexeme.** -/
inductive Lexeme where
  | blank (c : UInt8) (isSpace : Ascii.isSpace c = true)
  /-- An operator or a parenthesis. -/
  | symbol (c : UInt8) (token : Token) (writes : (c, token) ∈ Token.symbols)
  /-- A literal, with the double that its value is rounded to. -/
  | numeral (n : Numeral) (x : Float) (rounds : RoundsTo n.figure.value x)
  /-- A reference by a bare name. -/
  | bare (name : Text) (isBare : Name.IsBare name)
  /-- A reference in brackets, in which any byte but `]` may stand. -/
  | bracketed (inside : Text) (closed : Ascii.rightBracket ∉ inside)

namespace Lexeme

def text : Lexeme → Text
  | blank c _ => [c]
  | symbol c _ _ => [c]
  | numeral n _ _ => n.text
  | bare name _ => name
  | bracketed inside _ => (Segment.reference inside).text

/-- The variable that a reference refers to. -/
def name? : Lexeme → Option Text
  | bare name _ => some name
  | bracketed inside _ => some (Name.canonical inside)
  | _ => none

/-- The token of a lexeme, given what each variable stands for. -/
def token? (value : Text → Float) : Lexeme → Option Token
  | blank _ _ => none
  | symbol _ token _ => some token
  | numeral _ x _ => some (.number x)
  | bare name _ => some (.number (value name))
  | bracketed inside _ => some (.number (value (Name.canonical inside)))

/-- Literals and references. -/
def isOperand : Lexeme → Bool
  | blank _ _ => false
  | symbol _ _ _ => false
  | _ => true

/-- The text of lexemes in a row. -/
def texts (lexemes : List Lexeme) : Text := lexemes.flatMap text

/-- The tokens of lexemes in a row. -/
def tokens (value : Text → Float) (lexemes : List Lexeme) : List Token :=
  lexemes.filterMap (token? value)

/-- **Lexemes that make up an expression**, whatever their references stand for. -/
def IsArithmetic (lexemes : List Lexeme) : Prop := ∀ value, IsExpression (tokens value lexemes)

@[simp] theorem texts_nil : texts [] = [] := rfl

@[simp] theorem texts_cons (l : Lexeme) (rest : List Lexeme) :
    texts (l :: rest) = l.text ++ texts rest := rfl

@[simp] theorem texts_append (ls ms : List Lexeme) : texts (ls ++ ms) = texts ls ++ texts ms :=
  List.flatMap_append

@[simp] theorem tokens_append (value : Text → Float) (ls ms : List Lexeme) :
    tokens value (ls ++ ms) = tokens value ls ++ tokens value ms :=
  List.filterMap_append

end Lexeme

/-! ### What the references stand for does not matter -/

/-- A token up to the value of a number. -/
def Token.shape : Token → Token
  | .number _ => .number 0
  | token => token

theorem Token.shape_eq_number {token : Token} {x : Float} (h : token.shape = .number x) :
    ∃ y, token = .number y := by
  cases token with
  | number y => exact ⟨y, rfl⟩
  | _ => cases h

theorem Token.shape_eq_of_ne_number {token other : Token} (h : token.shape = other)
    (hother : ∀ x, other ≠ .number x) : token = other := by
  cases token with
  | number y => exact absurd h.symm (hother 0)
  | _ => exact h

/-- The grammar does not look at the values of numbers. -/
theorem Derives.of_map_shape_eq {phrase : Phrase} {tokens tokens' : List Token}
    (h : Derives phrase tokens) (hshape : tokens'.map Token.shape = tokens.map Token.shape) :
    Derives phrase tokens' := by
  -- shapes are taken apart as the rule puts tokens together
  induction h generalizing tokens' with
  | number value =>
    obtain ⟨token, rest, rfl, htoken, hrest⟩ := List.map_eq_cons_iff.1 hshape
    obtain rfl := List.map_eq_nil_iff.1 hrest
    obtain ⟨y, rfl⟩ := Token.shape_eq_number htoken
    exact .number y
  | @paren inner _ ih =>
    rw [List.map_cons, List.map_append] at hshape
    obtain ⟨first, rest, rfl, hfirst, hrest⟩ := List.map_eq_cons_iff.1 hshape
    obtain ⟨inside, last, rfl, hinside, hlast⟩ := List.map_eq_append_iff.1 hrest
    obtain ⟨closing, nothing, rfl, hclosing, hnothing⟩ := List.map_eq_cons_iff.1 hlast
    obtain rfl := List.map_eq_nil_iff.1 hnothing
    obtain rfl := Token.shape_eq_of_ne_number hfirst (by intro x h; cases h)
    obtain rfl := Token.shape_eq_of_ne_number hclosing (by intro x h; cases h)
    exact .paren (ih hinside)
  | @sign o operand additive _ ih =>
    obtain ⟨first, rest, rfl, hfirst, hrest⟩ := List.map_eq_cons_iff.1 hshape
    obtain rfl := Token.shape_eq_of_ne_number hfirst (by intro x h; cases h)
    exact .sign additive (ih hrest)
  | single _ ih => exact .single (ih hshape)
  | @chain o left right _ _ ihleft ihright =>
    rw [List.map_append, List.map_cons] at hshape
    obtain ⟨front, rest, rfl, hfront, hrest⟩ := List.map_eq_append_iff.1 hshape
    obtain ⟨operator, last, rfl, hoperator, hlast⟩ := List.map_eq_cons_iff.1 hrest
    obtain rfl := Token.shape_eq_of_ne_number hoperator (by intro x h; cases h)
    exact .chain (ihleft hfront) (ihright hlast)

theorem Lexeme.map_shape_tokens (value value' : Text → Float) (lexemes : List Lexeme) :
    (tokens value lexemes).map Token.shape = (tokens value' lexemes).map Token.shape := by
  rw [tokens, tokens, List.map_filterMap, List.map_filterMap]
  congr 1
  funext l
  cases l <;> rfl

/-- **One way to read the references is enough** to tell an expression. -/
theorem Lexeme.isArithmetic_iff (value : Text → Float) {lexemes : List Lexeme} :
    IsArithmetic lexemes ↔ IsExpression (tokens value lexemes) :=
  ⟨fun h => h value, fun h value' => h.of_map_shape_eq (map_shape_tokens value' value lexemes)⟩

/-! ### Keeping lexemes apart -/

/-- No two numbers side by side, and none at the front if there is one `behind`. -/
inductive Apart : Bool → List Token → Prop
  | nil (behind : Bool) : Apart behind []
  | number {rest : List Token} (x : Float) (h : Apart true rest) :
      Apart false (.number x :: rest)
  | other {behind : Bool} {token : Token} {rest : List Token} (hne : ∀ x, token ≠ .number x)
      (h : Apart false rest) : Apart behind (token :: rest)

theorem Apart.append_cons {behind : Bool} {left right : List Token} {token : Token}
    (h : Apart behind left) (hne : ∀ x, token ≠ .number x) (hright : Apart false right) :
    Apart behind (left ++ token :: right) := by
  induction h with
  | nil behind => exact .other hne hright
  | number x _ ih => exact .number x ih
  | other hne' _ ih => exact .other hne' ih

/-- **The grammar keeps numbers apart.** -/
theorem Derives.apart {phrase : Phrase} {tokens : List Token} (h : Derives phrase tokens) :
    Apart false tokens := by
  induction h with
  | number value => exact .number value (.nil true)
  | paren _ ih =>
    -- both parentheses stand between what is inside and any number outside
    have hclosing : Apart false [] := .nil false
    exact .other (by intro x h; cases h) (ih.append_cons (by intro x h; cases h) hclosing)
  | sign _ _ ih => exact .other (by intro x h; cases h) ih
  | single _ ih => exact ih
  | chain _ _ ihleft ihright => exact ihleft.append_cons (by intro x h; cases h) ihright

namespace Lexeme

/-- **No two operands side by side**, with or without blanks between them, and none in front
of the first symbol if there is one `behind`. -/
inductive Spaced : Bool → List Lexeme → Prop
  | nil (behind : Bool) : Spaced behind []
  | blank {behind : Bool} {rest : List Lexeme} (c : UInt8) (hc : Ascii.isSpace c = true)
      (h : Spaced behind rest) : Spaced behind (.blank c hc :: rest)
  | symbol {behind : Bool} {rest : List Lexeme} (c : UInt8) (token : Token)
      (hc : (c, token) ∈ Token.symbols) (h : Spaced false rest) :
      Spaced behind (.symbol c token hc :: rest)
  | operand {l : Lexeme} {rest : List Lexeme} (hl : l.isOperand = true)
      (h : Spaced true rest) : Spaced false (l :: rest)

theorem spaced_of_apart {value : Text → Float} {lexemes : List Lexeme} {behind : Bool}
    (h : Apart behind (tokens value lexemes)) : Spaced behind lexemes := by
  -- lexeme by lexeme, with what stands behind it as the state
  induction lexemes generalizing behind with
  | nil => exact .nil behind
  | cons l rest ih =>
    -- an operand has a number for its token, and so nothing may stand behind it
    have hoperand : ∀ x, Apart behind (.number x :: tokens value rest) →
        l.isOperand = true → Spaced behind (l :: rest) := by
      intro x hx hl
      cases hx with
      | number _ h => exact .operand hl (ih h)
      | other hne _ => exact absurd rfl (hne x)
    -- a blank has no token, and a symbol none that is a number
    cases l with
    | blank c hc => exact .blank c hc (ih h)
    | symbol c token hc =>
      cases h with
      | number x h => exact absurd rfl (Token.symbols_ne_number hc x)
      | other _ h => exact .symbol c token hc (ih h)
    | numeral n => exact hoperand _ h rfl
    | bare name hname => exact hoperand _ h rfl
    | bracketed inside hinside => exact hoperand _ h rfl

/-- **The lexemes of an expression are apart.** -/
theorem IsArithmetic.spaced {lexemes : List Lexeme} (h : IsArithmetic lexemes) :
    Spaced false lexemes :=
  spaced_of_apart (h fun _ => 0).apart

namespace Spaced

variable {behind : Bool} {ls ms : List Lexeme}

theorem mono (h : Spaced behind ls) : Spaced false ls := by
  induction h with
  | nil => exact .nil false
  | blank c hc _ ih => exact .blank c hc ih
  | symbol c token hc h _ => exact .symbol c token hc h
  | operand hl h _ => exact .operand hl h

theorem of_append_left (h : Spaced behind (ls ++ ms)) : Spaced behind ls := by
  induction ls generalizing behind with
  | nil => exact .nil behind
  | cons l ls ih =>
    cases h with
    | blank c hc h => exact .blank c hc (ih h)
    | symbol c token hc h => exact .symbol c token hc (ih h)
    | operand hl h => exact .operand hl (ih h)

theorem tail {l : Lexeme} (h : Spaced behind (l :: ls)) : Spaced false ls := by
  cases h with
  | blank c hc h => exact h.mono
  | symbol c token hc h => exact h
  | operand hl h => exact h.mono

theorem of_append_right (h : Spaced behind (ls ++ ms)) : Spaced false ms := by
  induction ls generalizing behind with
  | nil => exact h.mono
  | cons l ls ih => exact ih h.tail

end Spaced

/-! ### The bytes of lexemes -/

end Lexeme

namespace Numeral

/-- A byte of a literal. -/
def isPart (c : UInt8) : Bool :=
  Ascii.isDigit c || c == Ascii.dot || c == Ascii.plus || c == Ascii.minus
    || Literal.opensExponent c

theorem isPart_cases {c : UInt8} (h : isPart c = true) : Ascii.isDigit c = true ∨
    c = Ascii.dot ∨ c = Ascii.plus ∨ c = Ascii.minus ∨ c = 0x65 ∨ c = 0x45 := by
  simpa [isPart, Literal.opensExponent, or_assoc] using h

theorem isPart_of_isDigit {c : UInt8} (h : Ascii.isDigit c = true) : isPart c = true := by
  simp [isPart, h]

theorem isPart_of_mem_exponent {e : Exponent} {c : UInt8} (h : c ∈ e.text) :
    isPart c = true := by
  rcases List.mem_cons.1 h with rfl | h
  · rw [isPart, e.opens, Bool.or_true]
  · rcases List.mem_append.1 h with h | h
    · rcases e.isSign c (Option.mem_toList.1 h) with rfl | rfl <;> rfl
    · exact isPart_of_isDigit (e.allDigits c h)

end Numeral

theorem Numeral.isSpace_of_isPart {c : UInt8} (h : isPart c = true) :
    Ascii.isSpace c = false := by
  rcases isPart_cases h with h | rfl | rfl | rfl | rfl | rfl
  · exact Name.isSpace_of_isWord (Ascii.isWord_of_isDigit h)
  all_goals rfl

/-- What stands in a figure is part of a literal. -/
theorem Figure.isPart_of_mem_text (f : Figure) {c : UInt8} (h : c ∈ f.text) :
    Numeral.isPart c = true := by
  -- digits in front of the point and behind it, the point, and what belongs to the exponent
  rcases List.mem_append.1 h with h | h
  · rcases List.mem_append.1 h with h | h
    · exact Numeral.isPart_of_isDigit (f.wholeDigits c h)
    · cases hfraction : f.fraction? with
      | none =>
        rw [point, hfraction] at h
        cases h
      | some part =>
        rw [point, hfraction] at h
        rcases List.mem_cons.1 h with rfl | h
        · rfl
        · exact Numeral.isPart_of_isDigit (f.fractionDigits part hfraction c h)
  · cases hexponent : f.exponent? with
    | none =>
      rw [hexponent] at h
      cases h
    | some e =>
      rw [hexponent] at h
      exact Numeral.isPart_of_mem_exponent h

/-- There are no blanks in a figure. -/
theorem Figure.isSpace_of_mem_text (f : Figure) {c : UInt8} (h : c ∈ f.text) :
    Ascii.isSpace c = false :=
  Numeral.isSpace_of_isPart (f.isPart_of_mem_text h)

namespace Lexeme

/-- A byte that may stand outside references: a blank, a symbol, or part of a name or a
literal. -/
def isPlain (c : UInt8) : Bool :=
  Ascii.isSpace c || (Token.ofByte? c).isSome || Name.continuesName c || c == Ascii.dot

theorem isPlain_of_isPart {c : UInt8} (h : Numeral.isPart c = true) : isPlain c = true := by
  rcases Numeral.isPart_cases h with h | rfl | rfl | rfl | rfl | rfl
  · simp [isPlain, Name.continuesName, Ascii.isWord, h]
  all_goals rfl

/-- What is written outside brackets is plain. -/
theorem isPlain_of_mem_text {l : Lexeme} (hl : ∀ inside h, l ≠ .bracketed inside h) {c : UInt8}
    (h : c ∈ l.text) : isPlain c = true := by
  -- only brackets are not plain, and they are in references only
  cases l with
  | blank d hd =>
    obtain rfl := List.mem_singleton.1 h
    simp [isPlain, hd]
  | symbol d token hd =>
    obtain rfl := List.mem_singleton.1 h
    simp [isPlain, Token.ofByte?_eq_some_iff.2 hd]
  | numeral n => exact isPlain_of_isPart (n.figure.isPart_of_mem_text h)
  | bare name hname =>
    have := (Name.isBare_iff.1 hname).2.1 c h
    simp [isPlain, this]
  | bracketed inside hinside => exact absurd rfl (hl inside hinside)

end Lexeme

end AssayRules
