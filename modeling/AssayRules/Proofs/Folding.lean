import AssayRules.Proofs.Characters

/-!
# Folding goes character by character

Folding walks over bytes, decodes those that come in pairs, and finds by the parity of a code
point whether it is a capital. What it does to a text that is UTF-8 is said here without bytes
and without parities: every character is replaced by its `foldChar`, which goes by the letters
as they stand in the alphabets (`Text.foldCase_utf8`).

One character is folded as it should be (`Text.foldCase_utf8EncodeChar`) because the bytes of a
character of two bytes are decoded to its code point and those of longer ones are let through,
and because the rule for code points agrees with the alphabet (`toNat_foldChar`). Characters do
not run into each other, so that a whole text is folded by folding each of them.

A small letter has no other to be folded to (`foldChar_foldChar`). What folding gives is
therefore folded already, and, with any bytes, it is no longer than what it was given
(`Text.length_foldCase_le`).
-/

namespace AssayRules

/-! ### Folding a character -/

/-- **The letters of Latin Extended-A** that come in both cases, each capital with its small
letter. The dotted capital `İ` is not among them, as its small letter is the plain `i`. -/
def extendedLetters : List (Char × Char) :=
  [('Ā', 'ā'), ('Ă', 'ă'), ('Ą', 'ą'), ('Ć', 'ć'), ('Ĉ', 'ĉ'), ('Ċ', 'ċ'), ('Č', 'č'),
    ('Ď', 'ď'), ('Đ', 'đ'), ('Ē', 'ē'), ('Ĕ', 'ĕ'), ('Ė', 'ė'), ('Ę', 'ę'), ('Ě', 'ě'),
    ('Ĝ', 'ĝ'), ('Ğ', 'ğ'), ('Ġ', 'ġ'), ('Ģ', 'ģ'), ('Ĥ', 'ĥ'), ('Ħ', 'ħ'), ('Ĩ', 'ĩ'),
    ('Ī', 'ī'), ('Ĭ', 'ĭ'), ('Į', 'į'), ('Ĳ', 'ĳ'), ('Ĵ', 'ĵ'), ('Ķ', 'ķ'), ('Ĺ', 'ĺ'),
    ('Ļ', 'ļ'), ('Ľ', 'ľ'), ('Ŀ', 'ŀ'), ('Ł', 'ł'), ('Ń', 'ń'), ('Ņ', 'ņ'), ('Ň', 'ň'),
    ('Ŋ', 'ŋ'), ('Ō', 'ō'), ('Ŏ', 'ŏ'), ('Ő', 'ő'), ('Œ', 'œ'), ('Ŕ', 'ŕ'), ('Ŗ', 'ŗ'),
    ('Ř', 'ř'), ('Ś', 'ś'), ('Ŝ', 'ŝ'), ('Ş', 'ş'), ('Š', 'š'), ('Ţ', 'ţ'), ('Ť', 'ť'),
    ('Ŧ', 'ŧ'), ('Ũ', 'ũ'), ('Ū', 'ū'), ('Ŭ', 'ŭ'), ('Ů', 'ů'), ('Ű', 'ű'), ('Ų', 'ų'),
    ('Ŵ', 'ŵ'), ('Ŷ', 'ŷ'), ('Ÿ', 'ÿ'), ('Ź', 'ź'), ('Ż', 'ż'), ('Ž', 'ž')]

-- besides them the block holds the two variants of i and three letters without a capital in it
example : ((List.range' 0x100 0x80).filter fun cp =>
    !(extendedLetters.flatMap fun letters => [letters.1.toNat, letters.2.toNat]).contains cp)
      = ['İ', 'ı', 'ĸ', 'ŉ', 'ſ'].map Char.toNat := by
  decide +kernel

/-- **Folding of a character.** In ASCII and in Latin-1, where `×` stands among the capitals,
the small letters come 32 places behind the capitals; both Turkish variants of i are folded to
the plain one. -/
def foldChar (c : Char) : Char :=
  if 'A' ≤ c ∧ c ≤ 'Z' ∨ 'À' ≤ c ∧ c ≤ 'Þ' ∧ c ≠ '×' then Char.ofNat (c.toNat + 0x20)
  else if c = 'İ' ∨ c = 'ı' then 'i'
  else (extendedLetters.lookup c).getD c

/-- The rule for code points makes small letters of the capitals in the alphabet, and leaves
these alone. -/
theorem foldCodePoint_of_mem {letters : Char × Char} (h : letters ∈ extendedLetters) :
    0x100 ≤ letters.1.toNat ∧ foldCodePoint letters.1.toNat = letters.2.toNat ∧
      foldCodePoint letters.2.toNat = letters.2.toNat := by
  revert letters
  decide +kernel

/-- It changes no code point but the capitals of Latin-1, the two variants of i and the capitals
in the alphabet. -/
theorem of_foldCodePoint_ne {cp : Nat} (h : foldCodePoint cp ≠ cp) :
    (0xC0 ≤ cp ∧ cp ≤ 0xDE ∧ cp ≠ 0xD7) ∨ (cp = 0x130 ∨ cp = 0x131) ∨
      ∃ letters ∈ extendedLetters, letters.1.toNat = cp := by
  by_cases hblock : 0x100 ≤ cp ∧ cp < 0x180
  · have hcapitals : ∀ cp < 0x180, 0x100 ≤ cp → foldCodePoint cp ≠ cp → cp = 0x130 ∨ cp = 0x131 ∨
        cp ∈ extendedLetters.map fun letters => letters.1.toNat := by decide +kernel
    rw [← List.mem_map, or_assoc]
    exact Or.inr (hcapitals cp hblock.2 hblock.1 h)
  · refine Or.inl ?_
    unfold foldCodePoint at h
    split_ifs at h <;> omega

theorem foldCodePoint_latin {cp : Nat} (h : 0xC0 ≤ cp ∧ cp ≤ 0xDE ∧ cp ≠ 0xD7) :
    foldCodePoint cp = cp + 0x20 := if_pos h

/-- Behind Latin Extended-A nothing is folded. -/
theorem foldCodePoint_of_le {cp : Nat} (h : 0x180 ≤ cp) : foldCodePoint cp = cp := by
  unfold foldCodePoint
  split_ifs <;> omega

/-- Only a plain `i` comes from outside ASCII. -/
theorem eq_i_of_foldCodePoint_lt {cp : Nat} (h : 0x80 ≤ cp) (hlow : foldCodePoint cp < 0x80) :
    foldCodePoint cp = 0x69 := by
  unfold foldCodePoint at hlow ⊢
  split_ifs at hlow ⊢ <;> omega

/-- **A code point that was folded is folded to itself.** -/
theorem foldCodePoint_foldCodePoint (cp : Nat) :
    foldCodePoint (foldCodePoint cp) = foldCodePoint cp := by
  by_cases h : foldCodePoint cp = cp
  · rw [h, h]
  · rcases of_foldCodePoint_ne h with hlatin | (rfl | rfl) | ⟨letters, hmem, rfl⟩
    · rw [foldCodePoint_latin hlatin, foldCodePoint]
      split_ifs <;> omega
    · rfl
    · rfl
    · obtain ⟨-, hfold, hagain⟩ := foldCodePoint_of_mem hmem
      rw [hfold, hagain]

/-- **Characters are folded as their code points are.** -/
theorem toNat_foldChar (c : Char) :
    (foldChar c).toNat = if c.toNat < 0x80 then
        if 0x41 ≤ c.toNat ∧ c.toNat ≤ 0x5A then c.toNat + 0x20 else c.toNat
      else foldCodePoint c.toNat := by
  have hle : ∀ a b : Char, a ≤ b ↔ a.toNat ≤ b.toNat := fun _ _ => UInt32.le_iff_toNat_le
  rw [foldChar]
  -- the clauses for letters are gone through in order
  by_cases hcapital : 'A' ≤ c ∧ c ≤ 'Z' ∨ 'À' ≤ c ∧ c ≤ 'Þ' ∧ c ≠ '×'
  · rw [if_pos hcapital]
    simp only [hle, ne_eq, ← Char.toNat_inj] at hcapital
    rcases hcapital with hascii | hlatin
    · change 0x41 ≤ c.toNat ∧ c.toNat ≤ 0x5A at hascii
      rw [toNat_charOfNat (by omega), if_pos (by omega), if_pos hascii]
    · change 0xC0 ≤ c.toNat ∧ c.toNat ≤ 0xDE ∧ ¬ c.toNat = 0xD7 at hlatin
      rw [toNat_charOfNat (by omega), if_neg (by omega), foldCodePoint_latin hlatin]
  rw [if_neg hcapital]
  -- the dotted capital and the dotless small one
  by_cases hi : c = 'İ' ∨ c = 'ı'
  · rw [if_pos hi]
    rcases hi with rfl | rfl <;> rfl
  rw [if_neg hi]
  simp only [hle, ne_eq, ← Char.toNat_inj, not_or] at hcapital hi
  -- all other letters are in the table
  cases hlookup : extendedLetters.lookup c with
  | some small =>
    obtain ⟨front, back, hletters, -⟩ := List.lookup_eq_some_iff.1 hlookup
    have hmem : (c, small) ∈ extendedLetters := by
      rw [hletters]
      exact List.mem_append_right _ List.mem_cons_self
    obtain ⟨hlow, hfold, -⟩ := foldCodePoint_of_mem hmem
    rw [if_neg (by dsimp only at hlow; omega), hfold, Option.getD_some]
  | none =>
    rw [Option.getD_none, if_neg (show ¬ (0x41 ≤ c.toNat ∧ c.toNat ≤ 0x5A) from hcapital.1)]
    -- what the rule for code points would change has been dealt with
    have hfold : foldCodePoint c.toNat = c.toNat := by
      by_contra hne
      rcases of_foldCodePoint_ne hne with hlatin | hturkish | ⟨letters, hmem, heq⟩
      · exact hcapital.2 hlatin
      · exact hturkish.elim hi.1 hi.2
      · have hdiffer := List.lookup_eq_none_iff.1 hlookup letters hmem
        rw [Char.toNat_inj.1 heq, bne_self_eq_false] at hdiffer
        cases hdiffer
    rw [hfold, ite_self]

/-- **What a character is folded to is folded to itself.** -/
theorem foldChar_foldChar (c : Char) : foldChar (foldChar c) = foldChar c := by
  have hfold := toNat_foldChar c
  rw [← Char.toNat_inj, toNat_foldChar (foldChar c)]
  -- folding stays in ASCII or outside of it, but for the two that fold to an i
  by_cases hascii : c.toNat < 0x80
  · rw [if_pos hascii] at hfold
    rw [hfold]
    split_ifs <;> omega
  · rw [if_neg hascii] at hfold
    rw [hfold, foldCodePoint_foldCodePoint]
    split_ifs with hlow hcapital
    · have hi := eq_i_of_foldCodePoint_lt (Nat.not_lt.1 hascii) hlow
      omega
    · rfl
    · rfl

/-! ### The bytes of a character -/

/-- A capital of ASCII stands 32 places in front of its small letter. -/
theorem toLower_ofNat {n : Nat} (h : n < 0x80) :
    Ascii.toLower (UInt8.ofNat n)
      = UInt8.ofNat (if 0x41 ≤ n ∧ n ≤ 0x5A then n + 0x20 else n) := by
  revert n
  decide +kernel

/-- A code point of at most two bytes. -/
theorem utf8EncodeChar_eq_encodeCodePoint {c : Char} (h : c.toNat < 0x800) :
    String.utf8EncodeChar c = encodeCodePoint c.toNat := by
  change c.val.toNat < 0x800 at h
  unfold String.utf8EncodeChar encodeCodePoint
  dsimp only
  change _ = if c.val.toNat < 0x80 then _ else _
  -- one byte or two, the second of which is what is left over by 64
  by_cases hascii : c.val.toNat < 0x80
  · rw [if_pos (by omega), if_pos hascii]
    rfl
  · rw [if_neg (by omega), if_pos (by omega), if_neg hascii, Nat.add_comm, Nat.add_comm (_ % 64),
      Nat.mod_eq_of_lt (by omega : c.val.toNat / 64 < 32)]
    rfl

/-- Characters of three bytes and more are not folded. -/
theorem IsCharacter.foldCase_eq_self {ch : Text} (h : IsCharacter ch) (hlength : 2 < ch.length) :
    ch.foldCase = ch := by
  cases h with
  | ascii _ => exact absurd hlength (by simp)
  | two _ _ => exact absurd hlength (by simp)
  | longer hlead _ htail => exact Text.foldCase_longer hlead htail

namespace Text

/-- The two bytes of a code point are decoded to it, and folded as it is. -/
theorem foldCase_encodeCodePoint {cp : Nat} (h : 0x80 ≤ cp ∧ cp < 0x800) :
    foldCase (encodeCodePoint cp) = encodeCodePoint (foldCodePoint cp) := by
  -- neither byte overflows, so that the code point is read back from the two
  have hlead : (UInt8.ofNat (0xC0 + cp / 0x40)).toNat = 0xC0 + cp / 0x40 := by
    rw [UInt8.toNat_ofNat']
    omega
  have hnext : (UInt8.ofNat (0x80 + cp % 0x40)).toNat = 0x80 + cp % 0x40 := by
    rw [UInt8.toNat_ofNat']
    omega
  have hdecode : decodeTwoBytes (UInt8.ofNat (0xC0 + cp / 0x40)) (UInt8.ofNat (0x80 + cp % 0x40))
      = cp := by
    rw [decodeTwoBytes, hlead, hnext]
    omega
  rw [encodeCodePoint, if_neg (by omega), foldCase_pair, hdecode]
  · simp only [UInt8.le_iff_toNat_le, hlead, UInt8.toNat_ofNat]
    omega
  · rw [Nat.add_comm]
    exact isContinuation_ofNat (Nat.mod_lt _ (by decide))

/-- **One character is folded as it should be.** -/
theorem foldCase_utf8EncodeChar (c : Char) :
    foldCase (String.utf8EncodeChar c) = String.utf8EncodeChar (foldChar c) := by
  have hfold := toNat_foldChar c
  by_cases hascii : c.toNat < 0x80
  · -- a byte of ASCII
    rw [if_pos hascii] at hfold
    rw [utf8EncodeChar_eq_encodeCodePoint (by omega), encodeCodePoint, if_pos hascii, foldCase,
      toLower_ofNat hascii, ← hfold, utf8EncodeChar_eq_encodeCodePoint, encodeCodePoint, if_pos]
    · rw [hfold]
      split_ifs <;> omega
    · rw [hfold]
      split_ifs <;> omega
  · -- outside ASCII the rule is that of code points, for characters of two bytes and of more
    rw [if_neg hascii] at hfold
    by_cases htwo : c.toNat < 0x800
    · have hcases := foldCodePoint_cases ⟨Nat.not_lt.1 hascii, htwo⟩
      rw [utf8EncodeChar_eq_encodeCodePoint htwo, utf8EncodeChar_eq_encodeCodePoint (by omega),
        hfold, foldCase_encodeCodePoint ⟨Nat.not_lt.1 hascii, htwo⟩]
    · -- all letters with a case have shorter codes
      have hlength : 2 < (String.utf8EncodeChar c).length := by
        change ¬ c.val.toNat < 0x800 at htwo
        unfold String.utf8EncodeChar
        dsimp only
        split_ifs
        · omega
        · omega
        · exact Nat.lt_succ_self 2
        · exact Nat.lt_add_of_pos_right (Nat.succ_pos 1)
      rw [foldCodePoint_of_le (by omega)] at hfold
      rw [Char.toNat_inj.1 hfold, (isCharacter_utf8EncodeChar c).foldCase_eq_self hlength]

/-- **A text that is UTF-8 is folded character by character.** -/
theorem foldCase_utf8 (wording : String) :
    (utf8 wording).foldCase = utf8 (wording.map foldChar) := by
  rw [utf8_eq_flatMap, utf8_eq_flatMap, String.toList_map]
  induction wording.toList with
  | nil => rfl
  | cons c rest ih =>
    have hrest : IsUtf8 (rest.flatMap String.utf8EncodeChar) := isUtf8_iff.2 ⟨rest, rfl⟩
    rw [List.flatMap_cons, hrest.foldCase_append, foldCase_utf8EncodeChar, ih, List.map_cons,
      List.flatMap_cons]

/-- **Folding makes no text longer**, whether it is UTF-8 or not. -/
theorem length_foldCase_le (s : Text) : s.foldCase.length ≤ s.length := by
  -- a pair is folded to at most two bytes, and all else byte by byte
  fun_induction foldCase s with
  | case1 => exact Nat.le_refl _
  | case2 c => exact Nat.le_refl _
  | case3 c d rest _ ih =>
    have hcode : (encodeCodePoint (foldCodePoint (decodeTwoBytes c d))).length ≤ 2 := by
      rw [encodeCodePoint]
      split <;> simp
    rw [List.length_append, List.length_cons, List.length_cons]
    omega
  | case4 c d rest _ ih =>
    rw [List.length_cons, List.length_cons]
    exact Nat.succ_le_succ ih

/-- **Folding replaces every character by its folded one.** On texts that are UTF-8 it gives such
a text, which is no longer and folded already, and it may be done on the parts of a text. -/
theorem foldCase_by_characters {a b : Text} (ha : a.IsUtf8) (hb : b.IsUtf8) :
    (∀ wording, utf8 wording = a → a.foldCase = utf8 (wording.map foldChar)) ∧
      a.foldCase.IsUtf8 ∧
      a.foldCase.length ≤ a.length ∧
      a.foldCase.foldCase = a.foldCase ∧
      (a ++ b).foldCase = a.foldCase ++ b.foldCase := by
  obtain ⟨wording, rfl⟩ := ha
  refine ⟨?_, ⟨_, (foldCase_utf8 wording).symm⟩, length_foldCase_le _, ?_,
    hb.foldCase_append _⟩
  · intro wording' heq
    rw [← heq, foldCase_utf8]
  · -- all but this is said character by character, and a character is folded only once
    have hfolded : (wording.map foldChar).map foldChar = wording.map foldChar := by
      rw [String.map_map]
      congr 1
      exact funext foldChar_foldChar
    rw [foldCase_utf8, foldCase_utf8, hfolded]

/-- Both Turkish variants of i, a capital whose small letter is in another block, an odd and an
even capital, the multiplication sign, and characters of three and of four bytes. -/
theorem foldCase_by_characters_of_alphabets :
    (utf8 "İYıŸ×€").IsUtf8 ∧ (utf8 "ĹŁ𝔸").IsUtf8 ∧
      (utf8 "İYıŸ×€").foldCase = utf8 "iyiÿ×€" ∧
      (utf8 "iyiÿ×€").foldCase = utf8 "iyiÿ×€" ∧
      (utf8 "İYıŸ×€" ++ utf8 "ĹŁ𝔸").foldCase = utf8 "iyiÿ×€" ++ utf8 "ĺł𝔸" := by
  have ha : (utf8 "İYıŸ×€").IsUtf8 := ⟨_, rfl⟩
  have hb : (utf8 "ĹŁ𝔸").IsUtf8 := ⟨_, rfl⟩
  obtain ⟨hmap, -, -, hagain, happend⟩ := foldCase_by_characters ha hb
  obtain ⟨hmap', -⟩ := foldCase_by_characters hb ha
  have hfirst : (utf8 "İYıŸ×€").foldCase = utf8 "iyiÿ×€" := (hmap _ rfl).trans (by decide +kernel)
  have hsecond : (utf8 "ĹŁ𝔸").foldCase = utf8 "ĺł𝔸" := (hmap' _ rfl).trans (by decide +kernel)
  rw [hfirst] at hagain
  rw [hfirst, hsecond] at happend
  exact ⟨ha, hb, hfirst, hagain, happend⟩

end Text

end AssayRules
