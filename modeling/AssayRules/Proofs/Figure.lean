import AssayRules.Proofs.Lexeme
import Mathlib.Data.List.DropRight

/-!
# Reading a decimal literal

What stands for a number in a text is a **figure**: digits, perhaps a point with digits,
perhaps an exponent. It is more than the grammar calls a literal (`Numeral`), as an exponent
may stand directly behind the point.

A literal is read in three strides, over digits, over a fraction and over an exponent, and each
goes as far as it can. So what has been read is a figure, and the longest one that stands there
(`Literal.read_cases`): a stride over the text of any figure comes out at its end or behind it
(`Figure.length_remainder_append_le`). Whether it is accepted depends only on the byte behind
it, and a figure in front of a byte that no literal goes on with is read as it is written
(`Figure.read_append`).
-/

namespace AssayRules

/-- **The longest figure** at the front of a text. -/
def Figure.IsLongest (f : Figure) (s : Text) : Prop :=
  f.text <+: s ∧ ∀ g : Figure, g.text <+: s → g.text.length ≤ f.text.length

/-! ### The three strides -/

/-- What is left behind the three strides. -/
def Literal.remainder (s : Text) : Text := (exponent (fraction (digits s).2).2).2

theorem Literal.digits_append {d : Text} (hd : ∀ c ∈ d, Ascii.isDigit c = true) (t : Text) :
    digits (d ++ t) = (d ++ (digits t).1, (digits t).2) := by
  rw [digits, digits, List.takeWhile_append_of_pos hd, List.dropWhile_append_of_pos hd]

theorem Literal.digits_of_not {t : Text} (ht : t.head?.any Ascii.isDigit = false) :
    digits t = ([], t) := by
  cases t with
  | nil => rfl
  | cons c t =>
    have hc : ¬ Ascii.isDigit c = true := Bool.not_eq_true _ ▸ ht
    rw [digits, List.takeWhile_cons_of_neg hc, List.dropWhile_cons_of_neg hc]

/-- Digits are read as far as they go. -/
theorem Literal.digits_append_of_not {d t : Text} (hd : ∀ c ∈ d, Ascii.isDigit c = true)
    (ht : t.head?.any Ascii.isDigit = false) : digits (d ++ t) = (d, t) := by
  rw [digits_append hd, digits_of_not ht, List.append_nil]

theorem Literal.fraction_of_not {t : Text} (ht : t.head? ≠ some Ascii.dot) :
    fraction t = ([], t) := by
  cases t with
  | nil => rfl
  | cons c t =>
    have hc : ¬ c = Ascii.dot := fun h => ht (congrArg some h)
    rw [fraction, if_neg hc]

/-- The letter of an exponent may begin a name. -/
theorem Literal.isNameStart_of_opensExponent {c : UInt8} (h : opensExponent c = true) :
    Ascii.isNameStart c = true := by
  simp only [opensExponent, Bool.or_eq_true, beq_iff_eq] at h
  rcases h with rfl | rfl <;> rfl

theorem Literal.isAlphanum_of_opensExponent {c : UInt8} (h : opensExponent c = true) :
    Ascii.isAlphanum c = true := by
  simp only [opensExponent, Bool.or_eq_true, beq_iff_eq] at h
  rcases h with rfl | rfl <;> rfl

theorem Exponent.head_text (e : Exponent) (t : Text) :
    (e.text ++ t).head?.any Ascii.isDigit = false ∧ (e.text ++ t).head? ≠ some Ascii.dot := by
  have hletter := e.opens
  rw [Exponent.text, List.cons_append, List.head?_cons]
  generalize e.letter = letter at hletter ⊢
  simp only [Literal.opensExponent, Bool.or_eq_true, beq_iff_eq] at hletter
  rcases hletter with rfl | rfl <;> decide

/-- An optional sign is found, and what stands behind it. -/
theorem Text.sign_append {sign? : Option UInt8} {t : Text}
    (hsign : ∀ c ∈ sign?, c = Ascii.plus ∨ c = Ascii.minus)
    (ht : ∀ c ∈ t.head?, c ≠ Ascii.plus ∧ c ≠ Ascii.minus) :
    sign (sign?.toList ++ t) = (sign? == some Ascii.minus, t) := by
  -- with a sign it is taken off, and without one the first byte is none
  cases sign? with
  | none =>
    cases t with
    | nil => rfl
    | cons c t =>
      obtain ⟨hplus, hminus⟩ := ht c rfl
      rw [Option.toList_none, List.nil_append, sign, if_neg hminus, if_neg hplus]
      rfl
  | some c => rcases hsign c rfl with rfl | rfl <;> rfl

/-- The sign of an exponent is found, and its digits with what stands behind them. -/
theorem Exponent.sign_append (e : Exponent) (t : Text) :
    Text.sign (e.sign?.toList ++ (e.digits ++ t))
      = (e.sign? == some Ascii.minus, e.digits ++ t) := by
  refine Text.sign_append e.isSign fun c hc => ?_
  -- a digit is no sign
  have hdigit : Ascii.isDigit c = true := by
    rw [List.head?_append_of_ne_nil _ e.digits_ne_nil] at hc
    exact e.allDigits c (List.mem_of_mem_head? hc)
  constructor <;> rintro rfl <;> cases hdigit

/-- An exponent is read, with all digits that stand behind it. -/
theorem Exponent.exponent_append (e : Exponent) (t : Text) :
    Literal.exponent (e.text ++ t) =
      (Text.signedValue (e.sign? == some Ascii.minus) (e.digits ++ (Literal.digits t).1),
        (Literal.digits t).2) := by
  -- the digits behind the exponent are read with those of its own
  have hread := Literal.digits_append e.allDigits t
  rw [Exponent.text, List.cons_append, List.append_assoc, Literal.exponent, if_pos e.opens]
  dsimp only
  rw [e.sign_append]
  dsimp only
  rw [hread]
  -- an exponent has digits, so that it is not given back
  split
  · rename_i heq
    exact absurd (List.append_eq_nil_iff.1 (Prod.mk.inj heq).1).1 e.digits_ne_nil
  · rename_i power after _ heq
    obtain ⟨rfl, rfl⟩ := Prod.mk.inj heq
    rfl

/-! ### What stands behind a literal -/

theorem Literal.mayEndBefore_iff {t : Text} : mayEndBefore t = true ↔
    ∀ c ∈ t.head?, Ascii.isAlphanum c = false ∧ c ≠ Ascii.dot := by
  cases t <;> simp [mayEndBefore]

/-- Where a literal may end, none of its strides would go on. -/
theorem Literal.of_mayEndBefore {t : Text} (h : mayEndBefore t = true) :
    t.head?.any Ascii.isDigit = false ∧ t.head? ≠ some Ascii.dot ∧ exponent t = (0, t) := by
  rw [mayEndBefore_iff] at h
  cases t with
  | nil => exact ⟨rfl, by simp, rfl⟩
  -- a word byte would go on with the number, and a letter of an exponent is one
  | cons c t =>
    obtain ⟨hword, hdot⟩ := h c rfl
    refine ⟨?_, fun heq => hdot (Option.some.inj heq), ?_⟩
    · rw [Ascii.isAlphanum, Bool.or_eq_false_iff] at hword
      exact hword.2
    · have hopens : ¬ opensExponent c = true := by
        intro hopens
        rw [isAlphanum_of_opensExponent hopens] at hword
        cases hword
      rw [exponent, if_neg hopens]

namespace Figure

variable {f g : Figure} {s t : Text}

/-- **Two strides go over the front of a figure**, up to where its exponent would be. -/
theorem strides_append (f : Figure) {v : Text} (hdigit : v.head?.any Ascii.isDigit = false)
    (hdot : v.head? ≠ some Ascii.dot) :
    Literal.digits (f.whole ++ (f.point ++ v)) = (f.whole, f.point ++ v) ∧
      Literal.fraction (f.point ++ v) = (f.fraction?.getD [], v) := by
  rw [point]
  -- a figure without a point ends its fraction before it begins
  cases hfraction : f.fraction? with
  | none =>
    exact ⟨Literal.digits_append_of_not f.wholeDigits hdigit, Literal.fraction_of_not hdot⟩
  | some part =>
    refine ⟨Literal.digits_append_of_not f.wholeDigits rfl, ?_⟩
    rw [Option.elim_some, List.cons_append, Literal.fraction, if_pos rfl, Option.getD_some,
      Literal.digits_append_of_not (f.fractionDigits part hfraction) hdigit]

theorem text_append (f : Figure) (t : Text) :
    f.text ++ t = f.whole ++ (f.point ++ (f.exponent?.elim [] Exponent.text ++ t)) := by
  rw [text, List.append_assoc, List.append_assoc]

/-- **A figure is read as it is written**, where a literal may end. -/
theorem read_append (f : Figure) (h : Literal.mayEndBefore t = true) :
    Literal.read (f.text ++ t) = .ok (f.decimal, t) := by
  obtain ⟨hdigit, hdot, hnone⟩ := Literal.of_mayEndBefore h
  -- what stands behind the fraction
  obtain ⟨v, hv⟩ : ∃ v, v = f.exponent?.elim [] Exponent.text ++ t := ⟨_, rfl⟩
  have hexponent : Literal.exponent v = (f.exponent?.elim 0 Exponent.value, t) ∧
      v.head?.any Ascii.isDigit = false ∧ v.head? ≠ some Ascii.dot := by
    rw [hv]
    cases f.exponent? with
    | none => exact ⟨hnone, hdigit, hdot⟩
    | some e =>
      refine ⟨?_, e.head_text t⟩
      rw [Option.elim_some, e.exponent_append, Literal.digits_of_not hdigit, List.append_nil]
      rfl
  -- each stride stops where the next part begins, as none of them begins with a digit
  obtain ⟨hexponent, hvdigit, hvdot⟩ := hexponent
  obtain ⟨hdigits, hfraction⟩ := f.strides_append hvdigit hvdot
  have hsome : ¬ (f.whole.isEmpty && (f.fraction?.getD []).isEmpty) = true := by
    rw [Bool.and_eq_true, List.isEmpty_iff, List.isEmpty_iff]
    exact fun h => f.hasDigit.elim (fun hne => hne h.1) (fun hne => hne h.2)
  rw [f.text_append, ← hv, Literal.read, hdigits]
  dsimp only
  rw [hfraction]
  dsimp only
  rw [hexponent]
  dsimp only
  rw [if_neg hsome, if_pos h]
  rfl

/-- **The strides come out at the end of a figure or behind it.** -/
theorem length_remainder_append_le (f : Figure) (t : Text) :
    (Literal.remainder (f.text ++ t)).length ≤ t.length := by
  -- what is read beyond the figure can only be taken from behind it
  have hdigits := Literal.length_digits t
  rw [f.text_append, Literal.remainder]
  cases f.exponent? with
  | some e =>
    obtain ⟨hdigit, hdot⟩ := e.head_text t
    obtain ⟨hwhole, hfraction⟩ := f.strides_append hdigit hdot
    rw [Option.elim_some, hwhole, hfraction, e.exponent_append]
    dsimp only
    omega
  | none =>
    -- without an exponent, the stride that is the last one of the figure may go on
    refine (Literal.length_exponent _).trans ?_
    rw [Option.elim_none, List.nil_append, point]
    cases hfraction : f.fraction? with
    | none =>
      have hle := Literal.length_fraction (Literal.digits t).2
      rw [Option.elim_none, List.nil_append, Literal.digits_append f.wholeDigits]
      dsimp only
      omega
    | some part =>
      rw [Option.elim_some, List.cons_append, Literal.digits_append_of_not f.wholeDigits rfl,
        Literal.fraction, if_pos rfl, Literal.digits_append (f.fractionDigits part hfraction)]
      dsimp only
      omega

/-- Some digit of a figure is found. -/
theorem digits_ne_nil_or (f : Figure) (t : Text) :
    (Literal.digits (f.text ++ t)).1 ≠ [] ∨
      (Literal.fraction (Literal.digits (f.text ++ t)).2).1 ≠ [] := by
  rw [f.text_append]
  -- if there is no digit in front of the point, there is one behind it
  by_cases hwhole : f.whole = []
  · right
    have hpart := f.hasDigit.resolve_left (absurd hwhole)
    rw [hwhole, List.nil_append, point]
    cases hfraction : f.fraction? with
    | none =>
      rw [hfraction] at hpart
      exact absurd rfl hpart
    | some part =>
      rw [hfraction] at hpart
      rw [Option.elim_some, List.cons_append, Literal.digits_of_not rfl, Literal.fraction,
        if_pos rfl, Literal.digits_append (f.fractionDigits part hfraction)]
      exact List.append_ne_nil_of_left_ne_nil hpart _
  · left
    rw [Literal.digits_append f.wholeDigits]
    exact List.append_ne_nil_of_left_ne_nil hwhole _

/-- A figure begins with a digit or a point. -/
theorem exists_eq_cons (f : Figure) :
    ∃ c rest, f.text = c :: rest ∧ (Ascii.isDigit c || c == Ascii.dot) = true := by
  -- the first byte is a digit, or the point where no digit is in front of it
  cases hwhole : f.whole with
  | cons c rest =>
    have hc := f.wholeDigits c (hwhole ▸ List.mem_cons_self)
    rw [text, hwhole, List.cons_append, List.cons_append]
    exact ⟨c, _, rfl, by rw [hc, Bool.true_or]⟩
  | nil =>
    cases hfraction : f.fraction? with
    | none => exact absurd f.hasDigit (by simp [hwhole, hfraction])
    | some part =>
      rw [text, point, hwhole, hfraction, Option.elim_some, List.nil_append, List.cons_append]
      exact ⟨Ascii.dot, _, rfl, rfl⟩

/-- There is only one text that the longest figure can have. -/
theorem IsLongest.text_eq (hf : f.IsLongest s) (hg : g.IsLongest s) : f.text = g.text :=
  (List.prefix_of_prefix_length_le hf.1 hg.1 (hg.2 f hf.1)).eq_of_length_le (hf.2 g hg.1)

end Figure

/-! ### From text back to figures -/

theorem Text.exists_of_sign (s : Text) : ∃ sign? : Option UInt8,
    s = sign?.toList ++ (sign s).2 ∧ (∀ c ∈ sign?, c = Ascii.plus ∨ c = Ascii.minus) ∧
      (sign s).1 = (sign? == some Ascii.minus) := by
  cases s with
  | nil => exact ⟨none, rfl, by simp, rfl⟩
  | cons c rest =>
    rw [sign]
    split_ifs with hminus hplus
    · exact ⟨some c, rfl, by simp [hminus], by simp [hminus]⟩
    · exact ⟨some c, rfl, by simp [hplus], by simp [hplus]; decide⟩
    · exact ⟨none, rfl, by simp, rfl⟩

/-- What is read as an exponent is none at all or a complete one. -/
theorem Literal.exists_of_exponent (s : Text) : ∃ exponent? : Option Exponent,
    s = exponent?.elim [] Exponent.text ++ (exponent s).2 ∧
      (exponent s).1 = exponent?.elim 0 Exponent.value := by
  have hnone : ∀ s : Text, ∃ exponent? : Option Exponent,
      s = exponent?.elim [] Exponent.text ++ s ∧ (0 : Int) = exponent?.elim 0 Exponent.value :=
    fun s => ⟨none, rfl, rfl⟩
  cases s with
  | nil => exact hnone []
  | cons c rest =>
    by_cases hopens : opensExponent c = true
    · -- a letter that no digits follow is given back, so it counts as no exponent
      obtain ⟨sign?, hrest, hsign, hminus⟩ := Text.exists_of_sign rest
      rw [exponent, if_pos hopens]
      dsimp only
      split
      · exact hnone _
      · rename_i power after hne heq
        obtain ⟨rfl, rfl⟩ := Prod.mk.inj heq
        refine ⟨some ⟨c, sign?, _, hopens, hsign, fun d hd => List.mem_takeWhile_imp hd,
          fun hnil => hne hnil⟩, ?_, ?_⟩
        · rw [Option.elim_some, Exponent.text, List.cons_append, List.append_assoc,
            List.takeWhile_append_dropWhile, ← hrest]
        · rw [Option.elim_some, Exponent.value, hminus]
    · rw [exponent, if_neg hopens]
      exact hnone _

/-- What is read as a fraction is none at all, or a point with digits. -/
theorem Literal.exists_of_fraction (s : Text) : ∃ fraction? : Option Text,
    s = (fraction?.elim [] fun part => Ascii.dot :: part) ++ (fraction s).2 ∧
      (fraction s).1 = fraction?.getD [] ∧
      ∀ part ∈ fraction?, ∀ c ∈ part, Ascii.isDigit c = true := by
  -- a point opens the fraction, and the digits behind it are all that follow
  cases s with
  | nil => exact ⟨none, rfl, rfl, by simp⟩
  | cons c rest =>
    rw [fraction]
    split_ifs with hdot
    · refine ⟨some (rest.takeWhile Ascii.isDigit), ?_, rfl, ?_⟩
      · rw [Option.elim_some, List.cons_append, hdot]
        change _ = _ :: (rest.takeWhile Ascii.isDigit ++ rest.dropWhile Ascii.isDigit)
        rw [List.takeWhile_append_dropWhile]
      · intro part hpart d hd
        cases hpart
        exact List.mem_takeWhile_imp hd
    · exact ⟨none, rfl, rfl, by simp⟩

theorem Literal.read_eq (s : Text) :
    read s =
      if (digits s).1.isEmpty && (fraction (digits s).2).1.isEmpty then .error .digitsMissing
      else if mayEndBefore (exponent (fraction (digits s).2).2).2 then
        .ok (.ofDigits (digits s).1 (fraction (digits s).2).1
          (exponent (fraction (digits s).2).2).1, (exponent (fraction (digits s).2).2).2)
      else .error (.numberRunsOn
        (s.take (s.length - (exponent (fraction (digits s).2).2).2.length + 1))) :=
  rfl

/-- **What reading a literal comes to.** Either there is no figure at the front, or the longest one
is read, and it is accepted if a literal may end there. -/
theorem Literal.read_cases (s : Text) :
    (read s = .error .digitsMissing ∧ ∀ f : Figure, ¬ f.text <+: s) ∨
      ∃ (f : Figure) (after : Text), s = f.text ++ after ∧ f.IsLongest s ∧
        read s = if mayEndBefore after then .ok (f.decimal, after)
          else .error (.numberRunsOn (s.take (f.text.length + 1))) := by
  -- the three strides give the parts of a figure, unless there is no digit in them
  obtain ⟨fraction?, hfraction, hpart, hdigits⟩ := exists_of_fraction (digits s).2
  obtain ⟨exponent?, hexponent, hpower⟩ := exists_of_exponent (fraction (digits s).2).2
  have hwhole : s = (digits s).1 ++ (digits s).2 := List.takeWhile_append_dropWhile.symm
  by_cases hnone : (digits s).1.isEmpty && (fraction (digits s).2).1.isEmpty
  · refine Or.inl ⟨by rw [read_eq, if_pos hnone], ?_⟩
    rintro f ⟨t, rfl⟩
    rw [Bool.and_eq_true, List.isEmpty_iff, List.isEmpty_iff] at hnone
    exact (f.digits_ne_nil_or t).elim (absurd hnone.1) (absurd hnone.2)
  have hsome := hnone
  rw [hpart, Bool.and_eq_true, List.isEmpty_iff, List.isEmpty_iff, not_and_or] at hsome
  obtain ⟨f, hf⟩ : ∃ f : Figure, f = ⟨(digits s).1, fraction?, exponent?,
    fun c hc => List.mem_takeWhile_imp hc, hdigits, hsome⟩ := ⟨_, rfl⟩
  have htext : s = f.text ++ remainder s := by
    rw [f.text_append, Figure.point, hf, remainder, ← hexponent, ← hfraction, ← hwhole]
  have hlength := congrArg List.length htext
  rw [List.length_append] at hlength
  refine Or.inr ⟨f, remainder s, htext, ⟨⟨_, htext.symm⟩, ?_⟩, ?_⟩
  · -- another figure leaves no less than the strides do
    rintro g ⟨t, ht⟩
    have hle := g.length_remainder_append_le t
    rw [ht] at hle
    have hlength' := congrArg List.length ht
    rw [List.length_append] at hlength'
    omega
  · -- the value is that of the three parts, and what runs on is told by its length
    have hdecimal : Decimal.ofDigits (digits s).1 (fraction (digits s).2).1
        (exponent (fraction (digits s).2).2).1 = f.decimal := by
      rw [hpart, hpower, hf]
      rfl
    have htake : s.length - (remainder s).length + 1 = f.text.length + 1 := by omega
    rw [read_eq, if_neg hnone, hdecimal, ← remainder, htake]

/-- A point is no literal by itself. -/
theorem Literal.read_dot {t : Text} (ht : t.head?.any Ascii.isDigit = false) :
    read (Ascii.dot :: t) = .error .digitsMissing := by
  rw [read_eq, digits_of_not rfl, fraction, if_pos rfl, digits_of_not ht]
  exact if_pos rfl

namespace Figure

variable {s after : Text} {d : Decimal}

/-- **What is read as a literal is a figure**, and a literal may end behind it. -/
theorem exists_of_read (h : Literal.read s = .ok (d, after)) :
    ∃ f : Figure, s = f.text ++ after ∧ f.IsLongest s ∧ f.decimal = d ∧
      Literal.mayEndBefore after = true := by
  rcases Literal.read_cases s with ⟨herror, -⟩ | ⟨f, after', hs, hlongest, hread⟩
  · rw [herror] at h
    cases h
  · rw [hread] at h
    split_ifs at h with hend
    obtain ⟨rfl, rfl⟩ := Prod.mk.inj (Except.ok.inj h)
    exact ⟨f, hs, hlongest, rfl, hend⟩

end Figure

end AssayRules
