import AssayRules.Proofs.Double
import AssayRules.Proofs.Scanning
import AssayRules.Table.Number

/-!
# What numbers in cells look like

A text in a cell is told to be a number without any grammar: the decimal form is cut at its first
letter of an exponent and at its first point, and then the parts are looked at. What passes is what
the grammar of numbers has (`CellNumber.Writes`): nothing, an infinity, digits in another radix,
or a figure, with a sign or without.

The parts of a decimal are the parts of a figure (`unsigned?_text`, `exists_of_unsigned?`), as
neither letters nor points are among its digits. The forms are kept apart by single bytes: a
capital I is in the infinities only, and the letter of a radix is no part of a figure. And none of
the numbers is a NaN (`isNaN_of_writes`). What a cell reads as is this number, unless the text is
blank (`Cell.Reads`).

Rules have literals of their own, and these are read from front to back. Where a text might be a
decimal without a sign, both ways of reading come to the figure that is written there, blanks around
it aside (`CellNumber.Writes.exists_figure`, `Scans.exists_figure`), and so to the same number.
-/

namespace AssayRules

namespace CellNumber

/-! ### What a text writes -/

/-- A number behind an optional sign. -/
def signed (sign? : Option UInt8) (x : Float) : Float := if sign? = some Ascii.minus then -x else x

/-- **A digit** of some radix, in either letter case, **and its value**. -/
def IsDigit (c : UInt8) (d : ℕ) : Prop :=
  (utf8 "0123456789abcdef")[d]? = some c ∨ (utf8 "0123456789ABCDEF")[d]? = some c

/-- The letters that announce a radix. -/
def radices : List (UInt8 × ℕ) :=
  [(0x78, 16), (0x58, 16), (0x6F, 8), (0x4F, 8), (0x62, 2), (0x42, 2)]

/-- **The number that a text writes**, with no blanks at its ends. -/
inductive Writes : Text → Float → Prop
  | nothing : Writes [] 0.0
  /-- The infinity of a sign is what comes of dividing one by zero. -/
  | infinity (sign? : Option UInt8) (isSign : ∀ c ∈ sign?, c = Ascii.plus ∨ c = Ascii.minus) :
      Writes (sign?.toList ++ utf8 "Infinity") (signed sign? (1.0 / 0.0))
  /-- Digits are added up from the left, in double precision. -/
  | radix (letter : UInt8) (base : ℕ) (announces : (letter, base) ∈ radices) (digits : Text)
      (values : List ℕ) (digits_ne_nil : digits ≠ [])
      (areDigits : List.Forall₂ IsDigit digits values) (lt_base : ∀ d ∈ values, d < base) :
      Writes (Ascii.zero :: letter :: digits)
        (values.foldl (fun sum d => sum * Float.ofNat base + Float.ofNat d) 0.0)
  | decimal (sign? : Option UInt8) (isSign : ∀ c ∈ sign?, c = Ascii.plus ∨ c = Ascii.minus)
      (f : Figure) (x : Float) (rounds : RoundsTo f.value x) :
      Writes (sign?.toList ++ f.text) (signed sign? x)

/-! ### Parts -/

theorem divide_of_forall_not {p : UInt8 → Bool} {s : Text} (hs : ∀ c ∈ s, p c = false) :
    divide p s = (s, none) := by
  have hall : ∀ c ∈ s, (!p c) = true := fun c hc => by rw [hs c hc]; rfl
  rw [divide, List.takeWhile_eq_self_iff.2 hall, List.dropWhile_eq_nil_iff.2 hall]
  rfl

theorem divide_append {p : UInt8 → Bool} {s t : Text} {c : UInt8} (hs : ∀ d ∈ s, p d = false)
    (hc : p c = true) : divide p (s ++ c :: t) = (s, some t) := by
  have hall : ∀ d ∈ s, (!p d) = true := fun d hd => by rw [hs d hd]; rfl
  have hnot : ¬ (!p c) = true := by simp [hc]
  rw [divide, List.takeWhile_append_of_pos hall, List.dropWhile_append_of_pos hall,
    List.takeWhile_cons_of_neg (p := (!p ·)) hnot, List.dropWhile_cons_of_neg (p := (!p ·)) hnot,
    List.append_nil]
  rfl

theorem eq_of_divide {p : UInt8 → Bool} {s before : Text} (h : divide p s = (before, none)) :
    before = s := by
  obtain ⟨rfl, htail⟩ := Prod.mk.inj h
  cases hdrop : s.dropWhile (!p ·) with
  | nil => exact List.takeWhile_eq_self_iff.2 (List.dropWhile_eq_nil_iff.1 hdrop)
  | cons c rest =>
    rw [hdrop] at htail
    cases htail

theorem exists_of_divide {p : UInt8 → Bool} {s before behind : Text}
    (h : divide p s = (before, some behind)) : ∃ c, p c = true ∧ s = before ++ c :: behind := by
  -- what is left behind begins with the byte at which the division is made
  obtain ⟨rfl, htail⟩ := Prod.mk.inj h
  cases hdrop : s.dropWhile (!p ·) with
  | nil =>
    rw [hdrop] at htail
    cases htail
  | cons c rest =>
    have hc := List.head?_dropWhile_not (!p ·) s
    rw [hdrop] at htail hc
    refine ⟨c, by simpa using hc, ?_⟩
    obtain rfl : rest = behind := Option.some.inj htail
    rw [← hdrop, List.takeWhile_append_dropWhile]

/-- The text of an exponent behind its letter. -/
theorem exponent?_digits (e : Exponent) :
    exponent? (e.sign?.toList ++ e.digits) = some e.value := by
  have hsign := e.sign_append []
  rw [List.append_nil] at hsign
  have hdigits : ¬ (e.digits.isEmpty || !allDigits e.digits) = true := by
    have hall : allDigits e.digits = true := List.all_eq_true.2 e.allDigits
    simp [hall, e.digits_ne_nil]
  rw [exponent?, hsign]
  exact if_neg hdigits

theorem exists_of_exponent? {s : Text} {n : ℤ} {letter : UInt8}
    (hletter : Literal.opensExponent letter = true) (h : exponent? s = some n) :
    ∃ e : Exponent, e.text = letter :: s ∧ e.value = n := by
  obtain ⟨sign?, hs, hsign, hminus⟩ := Text.exists_of_sign s
  -- behind the sign there are digits and at least one, or nothing is read
  rw [exponent?] at h
  dsimp only at h
  split_ifs at h with hdigits
  rw [Bool.or_eq_true, not_or, List.isEmpty_iff, Bool.not_eq_true', Bool.not_eq_false] at hdigits
  refine ⟨⟨letter, sign?, _, hletter, hsign, List.all_eq_true.1 hdigits.2, hdigits.1⟩,
    congrArg (letter :: ·) hs.symm, ?_⟩
  rw [Exponent.value, ← hminus]
  exact Option.some.inj h

/-- A digit divides nothing. -/
theorem not_divides_of_isDigit {c : UInt8} (h : Ascii.isDigit c = true) :
    (c == 0x65 || c == 0x45) = false ∧ (c == Ascii.dot) = false := by
  constructor
  · refine Bool.eq_false_iff.2 fun hletter => ?_
    rw [Bool.or_eq_true, beq_iff_eq, beq_iff_eq] at hletter
    rcases hletter with rfl | rfl <;> cases h
  · refine beq_eq_false_iff_ne.2 ?_
    rintro rfl
    cases h

/-- What is asked of the parts is what a figure brings with it. -/
theorem areParts_iff {whole part : Text} :
    ¬ (!(allDigits whole && allDigits part) || (whole.isEmpty && part.isEmpty)) = true ↔
      ((∀ c ∈ whole, Ascii.isDigit c = true) ∧ ∀ c ∈ part, Ascii.isDigit c = true) ∧
        (whole ≠ [] ∨ part ≠ []) := by
  simp [allDigits, or_iff_not_imp_left, and_assoc]

/-- The digits behind the point, where there is one. -/
theorem isDigit_of_mem_fraction? (f : Figure) :
    ∀ c ∈ f.fraction?.getD [], Ascii.isDigit c = true := by
  cases hfraction : f.fraction? with
  | none => simp
  | some part => exact f.fractionDigits part hfraction

/-- The point of a figure is where it is divided. -/
theorem divide_at_dot (f : Figure) :
    divide (· == Ascii.dot) (f.whole ++ f.point) = (f.whole, f.fraction?) := by
  have hwhole : ∀ c ∈ f.whole, (c == Ascii.dot) = false := fun c hc =>
    (not_divides_of_isDigit (f.wholeDigits c hc)).2
  rw [Figure.point]
  cases f.fraction? with
  | none =>
    rw [Option.elim_none, List.append_nil]
    exact divide_of_forall_not hwhole
  | some part => exact divide_append hwhole rfl

/-- The letter of its exponent is where a figure is divided before that. -/
theorem divide_at_letter (f : Figure) : divide (fun c => c == 0x65 || c == 0x45) f.text =
    (f.whole ++ f.point, f.exponent?.map fun e => e.sign?.toList ++ e.digits) := by
  -- in front of the letter there are digits and a point, none of which is such a letter
  have hmantissa : ∀ c ∈ f.whole ++ f.point, (c == 0x65 || c == 0x45) = false := by
    intro c hc
    rcases List.mem_append.1 hc with hc | hc
    · exact (not_divides_of_isDigit (f.wholeDigits c hc)).1
    · rw [Figure.point] at hc
      cases hfraction : f.fraction? with
      | none =>
        rw [hfraction] at hc
        cases hc
      | some part =>
        rw [hfraction] at hc
        rcases List.mem_cons.1 hc with rfl | hc
        · rfl
        · exact (not_divides_of_isDigit (f.fractionDigits part hfraction c hc)).1
  rw [Figure.text]
  cases f.exponent? with
  | none =>
    rw [Option.elim_none, List.append_nil]
    exact divide_of_forall_not hmantissa
  | some e => exact divide_append hmantissa e.opens

/-- **A figure is a decimal number.** -/
theorem unsigned?_text (f : Figure) : unsigned? f.text = some f.decimal := by
  have hexponent : (f.exponent?.map fun e => e.sign?.toList ++ e.digits).elim (some 0) exponent?
      = some (f.exponent?.elim 0 Exponent.value) := by
    cases f.exponent? with
    | none => rfl
    | some e => exact exponent?_digits e
  -- with the parts found again, the checks on them are those that the figure carries
  rw [unsigned?, divide_at_letter]
  dsimp only
  rw [divide_at_dot]
  dsimp only
  rw [if_neg (areParts_iff.2 ⟨⟨f.wholeDigits, isDigit_of_mem_fraction? f⟩, f.hasDigit⟩),
    hexponent]
  rfl

/-- **What is read as a decimal number** without a sign **is a figure.** -/
theorem exists_of_unsigned? {s : Text} {d : Decimal} (h : unsigned? s = some d) :
    ∃ f : Figure, f.text = s ∧ f.decimal = d := by
  rw [unsigned?] at h
  dsimp only at h
  -- the two divisions are taken back, the one at the point first
  rcases hletter : divide (fun c => c == 0x65 || c == 0x45) s with ⟨mantissa, power⟩
  rcases hdot : divide (· == Ascii.dot) mantissa with ⟨whole, fraction?⟩
  rw [hletter] at h
  dsimp only at h
  rw [hdot] at h
  dsimp only at h
  split_ifs at h with hsome
  obtain ⟨n, hn, hd⟩ := Option.bind_eq_some_iff.1 h
  have hmantissa : mantissa = whole ++ fraction?.elim [] fun part => Ascii.dot :: part := by
    cases fraction? with
    | none => simpa using (eq_of_divide hdot).symm
    | some part =>
      obtain ⟨c, hc, rfl⟩ := exists_of_divide hdot
      rw [beq_iff_eq.1 hc]
      rfl
  obtain ⟨exponent?, hs, hvalue⟩ : ∃ exponent? : Option Exponent,
      mantissa ++ exponent?.elim [] Exponent.text = s ∧ exponent?.elim 0 Exponent.value = n := by
    cases power with
    | none => exact ⟨none, by simpa using eq_of_divide hletter, Option.some.inj hn⟩
    | some power =>
      obtain ⟨c, hc, rfl⟩ := exists_of_divide hletter
      obtain ⟨e, he, hvalue⟩ := exists_of_exponent? hc hn
      exact ⟨some e, by rw [Option.elim_some, he], hvalue⟩
  -- what was checked of the parts is what makes them a figure
  obtain ⟨⟨hwhole, hpart⟩, hdigit⟩ := areParts_iff.1 hsome
  have hfraction : ∀ part ∈ fraction?, ∀ c ∈ part, Ascii.isDigit c = true := by
    rintro part rfl
    exact hpart
  refine ⟨⟨whole, fraction?, exponent?, hwhole, hfraction, hdigit⟩, ?_, ?_⟩
  · rw [Figure.text, Figure.point, ← hmantissa]
    exact hs
  · rw [Figure.decimal, hvalue]
    exact Option.some.inj hd

/-! ### Signs -/

/-- A figure with the sign that may stand in front of it. -/
theorem sign_append_figure {sign? : Option UInt8}
    (hsign : ∀ c ∈ sign?, c = Ascii.plus ∨ c = Ascii.minus) (f : Figure) :
    Text.sign (sign?.toList ++ f.text) = (sign? == some Ascii.minus, f.text) := by
  refine Text.sign_append hsign fun c hc => ?_
  obtain ⟨d, rest, htext, hd⟩ := f.exists_eq_cons
  rw [htext] at hc
  obtain rfl := Option.some.inj hc
  constructor <;> rintro rfl <;> cases hd

theorem decimal?_eq (s : Text) : decimal? s = (unsigned? (Text.sign s).2).map fun d =>
    if (Text.sign s).1 then -d.toFloat else d.toFloat := rfl

theorem decimal?_eq_some_iff {s : Text} {v : Float} : decimal? s = some v ↔
    ∃ (sign? : Option UInt8) (f : Figure), (∀ c ∈ sign?, c = Ascii.plus ∨ c = Ascii.minus) ∧
      s = sign?.toList ++ f.text ∧ v = signed sign? f.decimal.toFloat := by
  constructor
  · -- a sign is split off first, and the rest is a figure or nothing
    intro h
    obtain ⟨sign?, hs, hsign, hminus⟩ := Text.exists_of_sign s
    rw [decimal?_eq] at h
    obtain ⟨d, hd, rfl⟩ := Option.map_eq_some_iff.1 h
    obtain ⟨f, hf, rfl⟩ := exists_of_unsigned? hd
    refine ⟨sign?, f, hsign, hf ▸ hs, ?_⟩
    rw [hminus]
    simp [signed]
  · rintro ⟨sign?, f, hsign, rfl, rfl⟩
    rw [decimal?, sign_append_figure hsign]
    dsimp only
    rw [unsigned?_text, signed]
    simp

/-! ### Other radices -/

theorem hexDigit?_eq_some_iff {c : UInt8} {d : ℕ} : Ascii.hexDigit? c = some d ↔ IsDigit c d := by
  -- all bytes are gone through on the one side, and all digits on the other
  constructor
  · have hall : ∀ b : Fin 256, ∀ d ∈ Ascii.hexDigit? (UInt8.ofFin b),
        IsDigit (UInt8.ofFin b) d := by
      simp only [IsDigit]
      decide +kernel
    exact hall c.toFin d
  · have hall : ∀ digit ∈ (utf8 "0123456789abcdef").zipIdx ++ (utf8 "0123456789ABCDEF").zipIdx,
        Ascii.hexDigit? digit.1 = some digit.2 := by
      decide +kernel
    intro h
    refine hall (c, d) (List.mem_append.2 ?_)
    rwa [List.mem_zipIdx_iff_getElem?, List.mem_zipIdx_iff_getElem?]

theorem base?_eq_some_iff {letter : UInt8} {base : ℕ} :
    base? letter = some base ↔ (letter, base) ∈ radices := by
  rw [base?, radices]
  split_ifs with hx ho hb
  · rcases hx with rfl | rfl <;> simp [eq_comm]
  · rcases ho with rfl | rfl <;> simp [eq_comm]
  · rcases hb with rfl | rfl <;> simp [eq_comm]
  · simp_all

/-- What the digits that are left come to. -/
theorem foldl_radix_eq_some_iff {base : ℕ} {digits : Text} {x? : Option Float} {v : Float} :
    digits.foldl (fun sum c => do
        let value ← sum
        let digit ← Ascii.hexDigit? c
        if digit < base then some (value * Float.ofNat base + Float.ofNat digit) else none) x?
      = some v ↔
    ∃ x ∈ x?, ∃ values : List ℕ, List.Forall₂ IsDigit digits values ∧ (∀ d ∈ values, d < base) ∧
      v = values.foldl (fun sum d => sum * Float.ofNat base + Float.ofNat d) x := by
  -- digit by digit with the sum so far, as the value is built up from the left
  induction digits generalizing x? with
  | nil => simp
  | cons c digits ih =>
    rw [List.foldl_cons, ih]
    constructor
    · rintro ⟨y, hy, values, hdigits, hlt, rfl⟩
      obtain ⟨x, hx, hy⟩ := Option.bind_eq_some_iff.1 hy
      obtain ⟨d, hd, hy⟩ := Option.bind_eq_some_iff.1 hy
      split_ifs at hy with hbase
      obtain rfl := Option.some.inj hy
      exact ⟨x, hx, d :: values, .cons (hexDigit?_eq_some_iff.1 hd) hdigits,
        List.forall_mem_cons.2 ⟨hbase, hlt⟩, rfl⟩
    · rintro ⟨x, rfl, values, hdigits, hlt, rfl⟩
      cases hdigits with
      | @cons _ d _ values hd hdigits =>
        obtain ⟨hbase, hlt⟩ := List.forall_mem_cons.1 hlt
        refine ⟨_, ?_, values, hdigits, hlt, rfl⟩
        rw [hexDigit?_eq_some_iff.2 hd]
        exact if_pos hbase

theorem exists_isDigit_of_mem {digits : Text} {values : List ℕ}
    (h : List.Forall₂ IsDigit digits values) {c : UInt8} (hc : c ∈ digits) : ∃ d, IsDigit c d := by
  induction h with
  | nil => cases hc
  | @cons _ d _ _ hd _ ih =>
    rcases List.mem_cons.1 hc with rfl | hc
    · exact ⟨d, hd⟩
    · exact ih hc

theorem radix?_eq_some_iff {base : ℕ} {digits : Text} {v : Float} :
    radix? base digits = some v ↔ digits ≠ [] ∧ ∃ values : List ℕ,
      List.Forall₂ IsDigit digits values ∧ (∀ d ∈ values, d < base) ∧
      v = values.foldl (fun sum d => sum * Float.ofNat base + Float.ofNat d) 0.0 := by
  rw [radix?]
  split_ifs with hnil
  · simp [List.isEmpty_iff.1 hnil]
  · rw [foldl_radix_eq_some_iff]
    simp [List.isEmpty_iff.not.1 hnil]

theorem otherRadix?_eq_some_iff {t digits : Text} {base : ℕ} :
    otherRadix? t = some (base, digits) ↔ digits ≠ [] ∧
      ∃ letter, (letter, base) ∈ radices ∧ t = Ascii.zero :: letter :: digits := by
  constructor
  · -- a prefix alone is no number: there has to be a digit behind it, whatever this is
    intro h
    unfold otherRadix? at h
    split at h
    · rename_i zero letter c rest
      split_ifs at h with hzero
      obtain ⟨base', hbase, heq⟩ := Option.map_eq_some_iff.1 h
      obtain ⟨rfl, rfl⟩ := Prod.mk.inj heq
      exact ⟨List.cons_ne_nil _ _, letter, base?_eq_some_iff.1 hbase, hzero ▸ rfl⟩
    · cases h
  · rintro ⟨hne, letter, hletter, rfl⟩
    obtain ⟨c, rest, rfl⟩ := List.exists_cons_of_ne_nil hne
    rw [otherRadix?, if_pos rfl, base?_eq_some_iff.2 hletter]
    rfl

/-! ### The forms are apart -/

/-- What is no part of a figure does not stand in one, nor in its sign. -/
theorem notMem_of_isPart {sign? : Option UInt8} {c : UInt8}
    (hsign : ∀ c ∈ sign?, c = Ascii.plus ∨ c = Ascii.minus) (f : Figure)
    (hc : Numeral.isPart c = false) : c ∉ sign?.toList ++ f.text := by
  refine fun hmem => Bool.eq_false_iff.1 hc ?_
  rcases List.mem_append.1 hmem with hmem | hmem
  · rcases hsign c (Option.mem_toList.1 hmem) with rfl | rfl <;> rfl
  · exact f.isPart_of_mem_text hmem

/-- A figure opens no radix, as the letter of one is no part of it. -/
theorem otherRadix?_figure {sign? : Option UInt8}
    (hsign : ∀ c ∈ sign?, c = Ascii.plus ∨ c = Ascii.minus) (f : Figure) :
    otherRadix? (sign?.toList ++ f.text) = none := by
  refine Option.eq_none_iff_forall_ne_some.2 fun ⟨base, digits⟩ h => ?_
  obtain ⟨-, letter, hletter, htext⟩ := otherRadix?_eq_some_iff.1 h
  have hletters : ∀ r ∈ radices, Numeral.isPart r.1 = false := by decide
  have hmem : letter ∈ sign?.toList ++ f.text :=
    htext ▸ List.mem_cons_of_mem _ List.mem_cons_self
  exact notMem_of_isPart hsign f (hletters _ hletter) hmem

/-- There is no capital I in a number in another radix. -/
theorem notMem_of_forall₂_isDigit {letter : UInt8} {base : ℕ} {digits : Text} {values : List ℕ}
    (hletter : (letter, base) ∈ radices) (hdigits : List.Forall₂ IsDigit digits values) :
    (0x49 : UInt8) ∉ Ascii.zero :: letter :: digits := by
  intro hmem
  rcases List.mem_cons.1 hmem with h | hmem
  · cases h
  · rcases List.mem_cons.1 hmem with rfl | hmem
    · exact absurd hletter (by simp [radices])
    · obtain ⟨d, hd⟩ := exists_isDigit_of_mem hdigits hmem
      cases hexDigit?_eq_some_iff.2 hd

/-- A number in which there is no capital I is no infinity. -/
theorem ofText?_of_notMem {s : Text} (hne : s.trim ≠ []) (h : (0x49 : UInt8) ∉ s.trim) :
    ofText? s = match otherRadix? s.trim with
      | some (base, digits) => radix? base digits
      | none => decimal? s.trim := by
  -- each spelling of the infinity has a letter that is not there
  have hinfinity : ∀ t, (0x49 : UInt8) ∈ t → s.trim ≠ t := by
    rintro t ht rfl
    exact h ht
  have hplus : ¬ (s.trim = utf8 "Infinity" ∨ s.trim = utf8 "+Infinity") :=
    not_or.2 ⟨hinfinity _ (by decide), hinfinity _ (by decide)⟩
  have hminus : ¬ s.trim = utf8 "-Infinity" := hinfinity _ (by decide)
  have hempty : ¬ s.trim.isEmpty = true := List.isEmpty_iff.not.2 hne
  exact (if_neg hempty).trans ((if_neg hplus).trans (if_neg hminus))

theorem infinity_eq_div : infinity = 1.0 / 0.0 := rfl

/-- **What a text writes is read.** -/
theorem ofText?_of_writes {s : Text} {v : Float} (h : Writes s.trim v) : ofText? s = some v := by
  generalize ht : s.trim = t at h
  -- by the way it is written, each of which is tried in its turn and shut out of the ways before
  cases h with
  | nothing =>
    rw [ofText?, ht]
    rfl
  | infinity sign? hsign =>
    rw [ofText?, ht, ← infinity_eq_div]
    cases sign? with
    | none => rfl
    | some c => rcases hsign c rfl with rfl | rfl <;> rfl
  | radix letter base hletter digits values hne hdigits hlt =>
    rw [ofText?_of_notMem (by simp [ht]) (ht ▸ notMem_of_forall₂_isDigit hletter hdigits), ht,
      otherRadix?_eq_some_iff.2 ⟨hne, letter, hletter, rfl⟩]
    exact radix?_eq_some_iff.2 ⟨hne, values, hdigits, hlt, rfl⟩
  | decimal sign? hsign f x hx =>
    have hne : sign?.toList ++ f.text ≠ [] := by
      obtain ⟨c, rest, hcons, -⟩ := f.exists_eq_cons
      simp [hcons]
    rw [ofText?_of_notMem (ht ▸ hne) (ht ▸ notMem_of_isPart hsign f rfl), ht,
      otherRadix?_figure hsign f]
    refine decimal?_eq_some_iff.2 ⟨sign?, f, hsign, rfl, ?_⟩
    rw [Figure.eq_toFloat hx]

/-- **What is read is what a text writes.** -/
theorem writes_of_ofText? {s : Text} {v : Float} (h : ofText? s = some v) : Writes s.trim v := by
  rw [ofText?] at h
  generalize s.trim = t at h
  -- in the order in which the ways are tried
  split_ifs at h with hnil hplus hminus
  · obtain rfl := List.isEmpty_iff.1 hnil
    obtain rfl := Option.some.inj h
    exact .nothing
  · obtain rfl := Option.some.inj h
    rw [infinity_eq_div]
    rcases hplus with rfl | rfl
    · exact .infinity none (by simp)
    · exact .infinity (some Ascii.plus) (by simp)
  · obtain rfl := Option.some.inj h
    rw [hminus, infinity_eq_div]
    exact .infinity (some Ascii.minus) (by simp)
  · split at h
    · rename_i base digits hradix
      obtain ⟨hne, letter, hletter, rfl⟩ := otherRadix?_eq_some_iff.1 hradix
      obtain ⟨-, values, hdigits, hlt, rfl⟩ := radix?_eq_some_iff.1 h
      exact .radix letter base hletter digits values hne hdigits hlt
    · obtain ⟨sign?, f, hsign, rfl, rfl⟩ := decimal?_eq_some_iff.1 h
      exact .decimal sign? hsign f _ f.roundsTo_toFloat

/-! ### Numbers in cells are numbers -/

theorem isNaN_signed {x : Float} (sign? : Option UInt8) (h : signOf? x = some .positive) :
    (signed sign? x).isNaN = false := by
  rw [signed]
  split_ifs
  · have hneg : signOf? (-x) = some .negative := by
      rw [signOf?_neg, h]
      rfl
    exact isNaN_of_signOf? hneg
  · exact isNaN_of_signOf? h

theorem signOf?_infinity : signOf? infinity = some .positive := signOf?_ofBits (Nat.le_refl _)

/-- **Adding up digits** comes to a number without a minus. -/
theorem signOf?_foldl {letter : UInt8} {base : ℕ} (hbase : (letter, base) ∈ radices)
    {values : List ℕ} (hlt : ∀ d ∈ values, d < base) {x : Float} (hx : signOf? x = some .positive) :
    signOf? (values.foldl (fun sum d => sum * Float.ofNat base + Float.ofNat d) x)
      = some .positive := by
  have hle : base = 16 ∨ base = 8 ∨ base = 2 := by
    have hall : ∀ r ∈ radices, r.2 = 16 ∨ r.2 = 8 ∨ r.2 = 2 := by decide
    exact hall _ hbase
  -- a radix is finite as a double, and above zero
  obtain ⟨mantissa, exponent, hpos, hfinite⟩ : ∃ mantissa exponent hpos,
      (Float.ofNat base).toModel.unpack
        = Float.Model.UnpackedFloat.finite .positive mantissa exponent hpos := by
    rcases hle with rfl | rfl | rfl <;> exact ⟨_, _, _, rfl⟩
  -- digit by digit, as a sum of positive sign is a number still
  induction values generalizing x with
  | nil => exact hx
  | cons d values ih =>
    obtain ⟨hd, hlt⟩ := List.forall_mem_cons.1 hlt
    have hdigit : signOf? (Float.ofNat d) = some .positive := signOf?_ofNat (by omega)
    exact ih hlt (signOf?_add (signOf?_mul hx hfinite) hdigit)

/-- **No text writes a NaN.** -/
theorem isNaN_of_writes {t : Text} {v : Float} (h : Writes t v) : v.isNaN = false := by
  cases h with
  | nothing => rfl
  | infinity sign? => exact isNaN_signed sign? (infinity_eq_div ▸ signOf?_infinity)
  | radix letter base hletter digits values hne hdigits hlt =>
    have hzero : signOf? 0.0 = some .positive := rfl
    exact isNaN_of_signOf? (signOf?_foldl hletter hlt hzero)
  | decimal sign? hsign f x hx => exact isNaN_signed sign? hx.signOf?

example : ofText? (utf8 " 0x1F ") = some 31 := by decide +kernel

example : ofText? (utf8 "-1.e-1e") = none := by decide +kernel

end CellNumber

/-- **The number that a cell reads as.** A NaN is not a reading, and neither is a blank text,
though it writes a number. -/
inductive Cell.Reads : Cell → Float → Prop
  | number (value : Float) (isNumber : value.isNaN = false) : Reads (.number value) value
  | text (s : Text) (value : Float) (notBlank : s.trim ≠ [])
      (writes : CellNumber.Writes s.trim value) : Reads (.text s) value

theorem Cell.reading?_eq_some_iff {cell : Cell} {value : Float} :
    cell.reading? = some value ↔ cell.Reads value := by
  constructor
  · intro h
    unfold reading? at h
    split at h
    · cases h
    · split_ifs at h with hnan
      obtain rfl := Option.some.inj h
      exact .number _ (Bool.eq_false_iff.2 hnan)
    · rename_i s
      split_ifs at h with hblank
      exact .text s value (fun hnil => hblank (List.isEmpty_iff.2 hnil))
        (CellNumber.writes_of_ofText? h)
  · rintro (⟨_, hnumber⟩ | ⟨s, _, hne, hwrites⟩)
    · rw [reading?, if_neg (Bool.eq_false_iff.1 hnumber)]
    · rw [reading?, if_neg (fun hblank => hne (List.isEmpty_iff.1 hblank))]
      exact CellNumber.ofText?_of_writes hwrites

theorem Cell.isSome_reading?_iff {cell : Cell} :
    cell.reading?.isSome = true ↔ ∃ value, cell.Reads value := by
  rw [Option.isSome_iff_exists]
  exact exists_congr fun _ => reading?_eq_some_iff

/-! ### The two readers of decimals -/

/-- Blanks behind a figure are trimmed, and nothing else. -/
theorem Figure.trim_text_append (f : Figure) {behind : Text}
    (hbehind : ∀ c ∈ behind, Ascii.isSpace c = true) : (f.text ++ behind).trim = f.text := by
  obtain ⟨hhead, hlast⟩ := Text.any_ends_of_forall_mem fun _ => f.isSpace_of_mem_text
  exact Text.trim_append_of_isSpace hhead hlast hbehind

/-- A row that is one number is a figure, with blanks around it. -/
theorem Scans.exists_figure {s : Text} {x : Float} (h : Scans s [.number x] []) :
    ∃ f : Figure, s.trim = f.text ∧ RoundsTo f.value x := by
  -- blanks are passed over, and the one figure has to be all the rest
  generalize hts : [Token.number x] = ts at h
  generalize hrest : ([] : Text) = rest at h
  induction h with
  | done => cases hts
  | @blank s rest ts c hc _ ih =>
    have htrim : Text.trim (c :: s) = s.trim :=
      Text.trim_append_left (List.forall_mem_singleton.2 hc)
    rw [htrim]
    exact ih hts hrest
  | symbol c token hc _ _ =>
    obtain rfl := (List.cons.inj hts).1
    exact absurd rfl (Token.symbols_ne_number hc x)
  | @figure behind rest ts f y _ _ hy hbehind _ =>
    obtain ⟨hx, rfl⟩ := List.cons.inj hts
    obtain rfl := Token.number.inj hx
    subst hrest
    -- what is behind the figure reads as nothing at all, and so is blank
    have hblank : lex behind = ⟨[], none⟩ := by
      rw [hbehind.lex_eq, lex_of_dropWhile_eq_nil rfl]
      rfl
    exact ⟨f, f.trim_text_append (isSpace_of_lex_nil hblank), hy⟩

/-- A figure with blanks around it is read as one number. -/
theorem lex_of_trim_eq_text {s : Text} {f : Figure} (h : s.trim = f.text) :
    lex s = ⟨[.number f.decimal.toFloat], none⟩ := by
  obtain ⟨before, behind, hs, hbefore, hbehind⟩ := Text.exists_trim s
  have hend : Literal.mayEndBefore behind = true :=
    mayEndBefore_of_endsWord fun c hc => endsWord_of_isSpace (hbehind c (List.mem_of_mem_head? hc))
  have hnothing : lex behind = .done :=
    lex_of_dropWhile_eq_nil (List.dropWhile_eq_nil_iff.2 hbehind)
  rw [hs, h, List.append_assoc, ← lex_dropWhile, List.dropWhile_append_of_pos hbefore,
    lex_dropWhile, lex_figure_append f hend, hnothing]
  rfl

/-- A text that begins like a number in another radix. -/
def CellNumber.OpensRadix (t : Text) : Prop :=
  2 < t.length ∧ ∃ r ∈ radices, [Ascii.zero, r.1] <+: t

instance : DecidablePred CellNumber.OpensRadix := fun _ =>
  inferInstanceAs (Decidable (_ ∧ _))

/-- A text with a digit or a point in front that is a number, and opens no radix, is a figure. -/
theorem CellNumber.Writes.exists_figure {t : Text} {v : Float} (h : Writes t v)
    (hbegins : t.head?.any (fun c => Ascii.isDigit c || c == Ascii.dot) = true)
    (hradix : ¬ OpensRadix t) : ∃ f : Figure, t = f.text ∧ RoundsTo f.value v := by
  -- what begins with a digit or a point is written as a figure or with a prefix
  cases h with
  | nothing => cases hbegins
  | infinity sign? hsign =>
    cases sign? with
    | none => cases hbegins
    | some c => rcases hsign c rfl with rfl | rfl <;> cases hbegins
  | radix letter base hletter digits values hne hdigits hlt =>
    have hlength := List.length_pos_iff.2 hne
    refine absurd ⟨?_, _, hletter, digits, rfl⟩ hradix
    simp only [List.length_cons]
    omega
  | decimal sign? hsign f x hx =>
    cases sign? with
    | none => exact ⟨f, rfl, hx⟩
    | some c => rcases hsign c rfl with rfl | rfl <;> cases hbegins

/-- **Where both readers read decimals, they read the same.** With a digit or a point in front, and
not the begin of a number in another radix, a text is a number in a cell if an expression could
have it for its only token, and it is the same number. -/
theorem ofText?_eq_some_iff_lex_eq {s : Text}
    (hbegins : s.trim.head?.any (fun c => Ascii.isDigit c || c == Ascii.dot) = true)
    (hradix : ¬ CellNumber.OpensRadix s.trim) (v : Float) :
    CellNumber.ofText? s = some v ∧ v.isNaN = false ↔ lex s = ⟨[.number v], none⟩ := by
  constructor
  · -- both sides name the same figure, with the same double for it
    rintro ⟨h, -⟩
    obtain ⟨f, htrim, hv⟩ := (CellNumber.writes_of_ofText? h).exists_figure hbegins hradix
    rw [Figure.eq_toFloat hv]
    exact lex_of_trim_eq_text htrim
  · intro h
    obtain ⟨rest, hscans, rfl⟩ := lex_eq_iff_scans.1 h
    obtain ⟨f, htrim, hv⟩ := hscans.exists_figure
    have hwrites : CellNumber.Writes s.trim v := htrim ▸ .decimal none (by simp) f v hv
    exact ⟨CellNumber.ofText?_of_writes hwrites, CellNumber.isNaN_of_writes hwrites⟩

/-- Half of ten, with blanks around it. -/
theorem lex_half_of_ten :
    ((utf8 "\t.5E+1 ").trim.head?.any (fun c => Ascii.isDigit c || c == Ascii.dot) = true ∧
      ¬ CellNumber.OpensRadix (utf8 "\t.5E+1 ").trim) ∧
    CellNumber.ofText? (utf8 "\t.5E+1 ") = some 5 ∧ lex (utf8 "\t.5E+1 ") = ⟨[.number 5], none⟩ :=
  have hread : CellNumber.ofText? (utf8 "\t.5E+1 ") = some 5 := by decide +kernel
  ⟨by decide, hread, (ofText?_eq_some_iff_lex_eq (by decide) (by decide) 5).1 ⟨hread, rfl⟩⟩

end AssayRules
