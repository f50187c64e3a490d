import AssayRules.Text.Ascii

/-!
# Trimming, joining and cutting text

The few operations on whole texts that every reader of the rule language needs.
Trimming is by the ASCII blanks alone (`Ascii.isSpace`). `Text.upToNul` is what a
reader of a diagnostic sees of it: a message ends before its first `NUL` byte.
-/

namespace AssayRules

namespace Text

/-- The text without the bytes at its end that satisfy `p`. -/
def dropEndWhile (p : UInt8 → Bool) (s : Text) : Text := (s.reverse.dropWhile p).reverse

/-- **Trimming**: the text without the blanks at either end. -/
def trim (s : Text) : Text := dropEndWhile Ascii.isSpace (s.dropWhile Ascii.isSpace)

/-- The texts one after the other, with `separator` between neighbours. -/
def join (separator : Text) (texts : List Text) : Text := separator.intercalate texts

/-- Texts listed for a reader: `a, b, c`. -/
def commaList (texts : List Text) : Text := join (utf8 ", ") texts

/-- The text before its first `NUL`, which is as far as a message is reported. -/
def upToNul (s : Text) : Text := s.takeWhile (· != Ascii.nul)

/-- The text before the first `stop` and the text after it, if `stop` occurs. -/
def splitAt? (stop : UInt8) : Text → Option (Text × Text)
  | [] => none
  | c :: rest => if c == stop then some ([], rest)
    else (splitAt? stop rest).map fun (before, after) => (c :: before, after)

/-- The number that a run of decimal digits writes. -/
def digitsValue (digits : Text) : Nat :=
  digits.foldl (fun n c => 10 * n + Ascii.digitValue c) 0

/-- **An optional sign** at the front: whether it is a minus, and the text behind it. -/
def sign : Text → Bool × Text
  | [] => (false, [])
  | c :: rest =>
    if c = Ascii.minus then (true, rest)
    else if c = Ascii.plus then (false, rest)
    else (false, c :: rest)

/-- The whole number that a sign and a run of decimal digits write. -/
def signedValue (negative : Bool) (digits : Text) : Int :=
  if negative then -(digitsValue digits : Int) else digitsValue digits

/-! ### First facts -/

@[simp] theorem trim_nil : trim [] = [] := rfl

@[simp] theorem join_nil (separator : Text) : join separator [] = [] := rfl

@[simp] theorem join_singleton (separator s : Text) : join separator [s] = s := by
  simp [join]

/-- What follows an optional sign is no longer than the whole. -/
theorem length_sign (s : Text) : (sign s).2.length ≤ s.length := by
  unfold sign
  split
  · simp
  · split
    · simp
    · split <;> simp

/-- Splitting loses only the byte it splits at. -/
theorem eq_of_splitAt?_eq_some {stop : UInt8} {s before after : Text}
    (h : splitAt? stop s = some (before, after)) : s = before ++ stop :: after := by
  induction s generalizing before with
  | nil => simp [splitAt?] at h
  | cons c rest ih =>
    unfold splitAt? at h
    split at h
    · rename_i hc
      simp only [Option.some.injEq, Prod.mk.injEq] at h
      simp [← h.1, ← h.2, eq_of_beq hc]
    · obtain ⟨⟨before', after'⟩, hp, hpe⟩ := Option.map_eq_some_iff.1 h
      simp only [Prod.mk.injEq] at hpe
      obtain ⟨rfl, rfl⟩ := hpe
      rw [ih hp, List.cons_append]

/-- What follows the split is shorter than the whole. -/
theorem length_lt_of_splitAt?_eq_some {stop : UInt8} {s before after : Text}
    (h : splitAt? stop s = some (before, after)) : after.length < s.length := by
  rw [eq_of_splitAt?_eq_some h]
  simp only [List.length_append, List.length_cons]
  omega

end Text

end AssayRules
