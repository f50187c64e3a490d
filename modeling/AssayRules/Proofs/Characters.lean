import AssayRules.Name
import AssayRules.Text.Fold
import Mathlib.Data.List.Basic
import Mathlib.Tactic.Common

/-!
# Texts of whole characters

Folding and searching go by bytes, and do what they should on texts that are UTF-8. This
file says what is used of that. A text that is UTF-8 (`Text.IsUtf8`) is a row of characters
(`IsCharacter`), and one never begins with a byte that continues another. So a text comes
apart where a character begins (`Text.IsUtf8.of_append`), and both folding and cutting into
characters may be done on the parts.

What folding does to a character is cruder than to a code point, and enough: a byte of ASCII
stays one and at most changes its letter case, and any other character becomes bytes that
are all outside ASCII or a plain `i`. A class of bytes that makes no difference between these
(`Caseless`) is therefore not touched by folding, neither at the ends of a text nor inside.
-/

namespace AssayRules

/-! ### Characters -/

/-- **The bytes of one character**, as far as folding and searching look at them: a byte of
ASCII, or a lead byte with as many bytes behind it as it announces. -/
inductive IsCharacter : Text → Prop
  | ascii {c : UInt8} (h : c < 0x80) : IsCharacter [c]
  | two {lead next : UInt8} (hlead : 0xC2 ≤ lead ∧ lead ≤ 0xDF)
      (hnext : isContinuation next = true) : IsCharacter [lead, next]
  | longer {lead : UInt8} {tail : Text} (hlead : 0xE0 ≤ lead)
      (hlength : tail.length = Text.characterLength lead - 1)
      (htail : ∀ c ∈ tail, isContinuation c = true) : IsCharacter (lead :: tail)

theorem toNat_charOfNat {n : Nat} (h : n < 0xD800) : (Char.ofNat n).toNat = n := by
  rw [Char.ofNat, dif_pos (Or.inl h)]
  rfl

theorem isContinuation_ofNat {n : Nat} (h : n < 0x40) :
    isContinuation (UInt8.ofNat (n + 0x80)) = true := by
  simp only [isContinuation, UInt8.le_iff_toNat_le, Bool.and_eq_true, decide_eq_true_eq,
    UInt8.toNat_ofNat', UInt8.toNat_ofNat]
  omega

theorem isCharacter_utf8EncodeChar (c : Char) : IsCharacter (String.utf8EncodeChar c) := by
  have hcontinues : ∀ n, isContinuation (UInt8.ofNat (n % 64 + 128)) = true :=
    fun n => isContinuation_ofNat (Nat.mod_lt _ (by decide))
  unfold String.utf8EncodeChar
  dsimp only
  -- one case for each number of bytes, from one to four
  split_ifs with h₁ h₂ h₃
  · refine .ascii ?_
    rw [UInt8.lt_iff_toNat_lt]
    simp only [UInt8.toNat_ofNat', UInt8.toNat_ofNat]
    omega
  · refine .two ?_ (hcontinues _)
    simp only [UInt8.le_iff_toNat_le, UInt8.toNat_ofNat', UInt8.toNat_ofNat]
    omega
  · -- three bytes, so that the first one announces two more
    refine .longer ?_ ?_ ?_
    · simp only [UInt8.le_iff_toNat_le, UInt8.toNat_ofNat', UInt8.toNat_ofNat]
      omega
    · simp only [Text.characterLength, UInt8.le_iff_toNat_le, UInt8.toNat_ofNat',
        UInt8.toNat_ofNat]
      rw [if_neg (by omega), if_pos (by omega)]
      rfl
    · intro d hd
      rcases List.mem_cons.1 hd with rfl | hd
      · exact hcontinues _
      · rw [List.mem_singleton.1 hd]
        exact hcontinues _
  · -- and four, where it announces three
    refine .longer ?_ ?_ ?_
    · simp only [UInt8.le_iff_toNat_le, UInt8.toNat_ofNat', UInt8.toNat_ofNat]
      omega
    · simp only [Text.characterLength, UInt8.le_iff_toNat_le, UInt8.toNat_ofNat',
        UInt8.toNat_ofNat]
      rw [if_pos (by omega)]
      rfl
    · intro d hd
      rcases List.mem_cons.1 hd with rfl | hd
      · exact hcontinues _
      · rcases List.mem_cons.1 hd with rfl | hd
        · exact hcontinues _
        · rw [List.mem_singleton.1 hd]
          exact hcontinues _

namespace IsCharacter

variable {ch : Text}

theorem ne_nil (h : IsCharacter ch) : ch ≠ [] := by
  cases h <;> exact List.cons_ne_nil _ _

/-- A character begins with a byte that continues nothing, and goes on with bytes that do,
of which its first byte says how many there are. -/
theorem exists_eq_cons (h : IsCharacter ch) :
    ∃ lead tail, ch = lead :: tail ∧ isContinuation lead = false ∧
      (∀ c ∈ tail, isContinuation c = true) ∧
      tail.length = Text.characterLength lead - 1 := by
  -- by the number of bytes, as the first of them tells how many follow
  cases h with
  | @ascii c h =>
    refine ⟨c, [], rfl, ?_, by simp, ?_⟩
    · grind [isContinuation]
    · grind [Text.characterLength]
  | @two lead next hlead hnext =>
    refine ⟨lead, [next], rfl, ?_, by simpa using hnext, ?_⟩
    · grind [isContinuation]
    · grind [Text.characterLength]
  | @longer lead tail hlead hlength htail =>
    exact ⟨lead, tail, rfl, by grind [isContinuation], htail, hlength⟩

end IsCharacter

namespace Text

/-! ### Texts that are UTF-8 -/

/-- **A text is UTF-8** if it is the bytes of some wording. -/
def IsUtf8 (s : Text) : Prop := ∃ wording : String, utf8 wording = s

theorem utf8_eq_flatMap (wording : String) :
    utf8 wording = wording.toList.flatMap String.utf8EncodeChar := by
  rw [utf8, String.toUTF8, ← String.utf8Encode_toList]
  simp [List.utf8Encode]

theorem isUtf8_iff {s : Text} :
    s.IsUtf8 ↔ ∃ characters : List Char, s = characters.flatMap String.utf8EncodeChar := by
  constructor
  · rintro ⟨wording, rfl⟩
    exact ⟨wording.toList, utf8_eq_flatMap wording⟩
  · rintro ⟨characters, rfl⟩
    exact ⟨String.ofList characters, by rw [utf8_eq_flatMap, String.toList_ofList]⟩

theorem isUtf8_nil : IsUtf8 [] := ⟨"", rfl⟩

theorem IsUtf8.append {s t : Text} (hs : s.IsUtf8) (ht : t.IsUtf8) : (s ++ t).IsUtf8 := by
  obtain ⟨cs, rfl⟩ := isUtf8_iff.1 hs
  obtain ⟨ds, rfl⟩ := isUtf8_iff.1 ht
  exact isUtf8_iff.2 ⟨cs ++ ds, List.flatMap_append.symm⟩

/-- **Induction on characters.** -/
@[elab_as_elim]
theorem IsUtf8.induction {motive : (s : Text) → s.IsUtf8 → Prop} (nil : motive [] isUtf8_nil)
    (append : ∀ ch t, IsCharacter ch → ∀ (hch : IsUtf8 ch) (ht : IsUtf8 t), motive t ht →
      motive (ch ++ t) (hch.append ht)) {s : Text} (hs : s.IsUtf8) : motive s hs := by
  -- a text is the encoding of characters, and the induction is on these
  have hall : ∀ characters : List Char, ∀ h,
      motive (characters.flatMap String.utf8EncodeChar) h := by
    intro characters
    induction characters with
    | nil => exact fun _ => nil
    | cons c rest ih =>
      intro h
      have hc : IsUtf8 (String.utf8EncodeChar c) := isUtf8_iff.2 ⟨[c], by simp⟩
      exact append _ _ (isCharacter_utf8EncodeChar c) hc (isUtf8_iff.2 ⟨rest, rfl⟩) (ih _)
  obtain ⟨characters, rfl⟩ := isUtf8_iff.1 hs
  exact hall characters hs

theorem isUtf8_of_ascii {s : Text} (h : ∀ c ∈ s, c < 0x80) : s.IsUtf8 := by
  refine isUtf8_iff.2 ⟨s.map fun c => Char.ofNat c.toNat, ?_⟩
  rw [List.flatMap_map]
  -- byte by byte, as each is a character of its own
  induction s with
  | nil => rfl
  | cons c rest ih =>
    have hc : c.toNat < 0x80 := UInt8.lt_iff_toNat_lt.1 (h c List.mem_cons_self)
    -- a code point this small is a character, and its own byte
    have hvalid : (Char.ofNat c.toNat).val.toNat = c.toNat := toNat_charOfNat (by omega)
    have hencode : String.utf8EncodeChar (Char.ofNat c.toNat) = [c] := by
      unfold String.utf8EncodeChar
      dsimp only
      rw [hvalid, if_pos (by omega), UInt8.ofNat_toNat]
    rw [List.flatMap_cons, hencode, ← ih fun d hd => h d (List.mem_cons_of_mem _ hd)]
    rfl

theorem isUtf8_singleton {c : UInt8} (h : c < 0x80) : Text.IsUtf8 [c] :=
  isUtf8_of_ascii (List.forall_mem_singleton.2 h)

theorem IsUtf8.head {s : Text} (hs : s.IsUtf8) : s.head?.any isContinuation = false := by
  refine hs.induction (motive := fun s _ => s.head?.any isContinuation = false) rfl
    fun ch t hch _ _ _ => ?_
  obtain ⟨lead, tail, rfl, hlead, -, -⟩ := hch.exists_eq_cons
  exact hlead

/-- **Coming apart in front of a character**: both parts are UTF-8. -/
theorem IsUtf8.of_append {s t : Text} (h : (s ++ t).IsUtf8)
    (ht : t.head?.any isContinuation = false) : s.IsUtf8 ∧ t.IsUtf8 := by
  generalize hst : s ++ t = whole at h
  -- character by character, until the cut is reached
  induction h using IsUtf8.induction generalizing s with
  | nil =>
    obtain ⟨rfl, rfl⟩ := List.append_eq_nil_iff.1 hst
    exact ⟨isUtf8_nil, isUtf8_nil⟩
  | append ch rest hch hch' hrest ih =>
    rcases List.append_eq_append_iff.1 hst with ⟨middle, rfl, rfl⟩ | ⟨middle, rfl, rfl⟩
    · -- the cut lies in the character, and so it lies in front of it
      obtain ⟨lead, tail, heq, hlead, htail, -⟩ := hch.exists_eq_cons
      cases s with
      | nil => exact ⟨isUtf8_nil, hch'.append hrest⟩
      | cons c s =>
        cases middle with
        | nil =>
          rw [List.append_nil] at hch'
          exact ⟨hch', hrest⟩
        | cons d middle =>
          rw [List.cons_append] at heq
          have hd : isContinuation d = true :=
            htail d ((List.cons.inj heq).2 ▸ List.mem_append_right _ List.mem_cons_self)
          rw [List.cons_append, List.head?_cons, Option.any_some, hd] at ht
          cases ht
    · -- the cut lies behind the character
      obtain ⟨hmiddle, ht'⟩ := ih rfl
      exact ⟨hch'.append hmiddle, ht'⟩

/-- A text that is UTF-8 can be taken away from the front. -/
theorem IsUtf8.of_append_left {s t : Text} (h : (s ++ t).IsUtf8) (hs : s.IsUtf8) :
    t.IsUtf8 := by
  -- on the characters of the first part, which are taken off the whole one by one
  induction hs using IsUtf8.induction with
  | nil => exact h
  | append ch rest hch hch' hrest ih =>
    refine ih ?_
    rw [List.append_assoc] at h
    generalize hwhole : ch ++ (rest ++ t) = whole at h
    -- the two first characters have one first byte, and so one length
    induction h using IsUtf8.induction with
    | nil => exact absurd (List.append_eq_nil_iff.1 hwhole).1 hch.ne_nil
    | append ch₁ t₁ hch₁ _ ht₁ _ =>
      obtain ⟨lead, tail, rfl, -, -, hlength⟩ := hch.exists_eq_cons
      obtain ⟨lead', tail', rfl, -, -, hlength'⟩ := hch₁.exists_eq_cons
      obtain ⟨rfl, htails⟩ := List.cons.inj hwhole
      rw [(List.append_inj htails (hlength.trans hlength'.symm)).2]
      exact ht₁

/-- What is around a part that is UTF-8 is UTF-8 as well. -/
theorem IsUtf8.around {s u t : Text} (h : (s ++ (u ++ t)).IsUtf8) (hu : u.IsUtf8) (hne : u ≠ []) :
    s.IsUtf8 ∧ t.IsUtf8 := by
  have hhead : (u ++ t).head?.any isContinuation = false := by
    rw [List.head?_append_of_ne_nil _ hne]
    exact hu.head
  obtain ⟨hs, hut⟩ := h.of_append hhead
  exact ⟨hs, hut.of_append_left hu⟩

theorem IsUtf8.of_append_ascii {s t : Text} (h : (s ++ t).IsUtf8)
    (ht : ∀ c ∈ t.head?, c < 0x80) : s.IsUtf8 ∧ t.IsUtf8 := by
  refine h.of_append ?_
  cases t with
  | nil => rfl
  | cons c t =>
    have := ht c rfl
    grind [isContinuation]

/-! ### Cutting into characters -/

theorem characters_append_of_isCharacter {ch : Text} (h : IsCharacter ch) (t : Text) :
    characters (ch ++ t) = ch :: characters t := by
  obtain ⟨lead, tail, rfl, -, -, hlength⟩ := h.exists_eq_cons
  rw [List.cons_append, characters, ← hlength, List.take_left, List.drop_left]

theorem IsUtf8.characters_append {s : Text} (hs : s.IsUtf8) (t : Text) :
    characters (s ++ t) = characters s ++ characters t := by
  induction hs using IsUtf8.induction with
  | nil => rw [List.nil_append, characters_nil, List.nil_append]
  | append ch rest hch _ _ ih =>
    rw [List.append_assoc, characters_append_of_isCharacter hch, ih,
      characters_append_of_isCharacter hch, List.cons_append]

/-! ### Folding -/

/-- **Folding in parts**: what follows has to begin with a character. -/
theorem foldCase_append {s t : Text} (ht : t.head?.any isContinuation = false) :
    foldCase (s ++ t) = foldCase s ++ foldCase t := by
  -- along the cases of folding, which looks at two bytes at a time
  fun_induction foldCase s with
  | case1 => rfl
  | case2 c =>
    -- here `s` ends, and the last byte of it must not be joined with the first of `t`
    cases t with
    | nil => rfl
    | cons d t =>
      have hd : isContinuation d = false := ht
      rw [List.singleton_append, foldCase, hd, Bool.and_false]
      rfl
  -- a pair of bytes is folded inside `s`, and `t` is not touched
  | case3 c d rest h ih =>
    rw [List.cons_append, List.cons_append, foldCase, if_pos h, ih, List.append_assoc]
  | case4 c d rest h ih =>
    rw [List.cons_append, List.cons_append, foldCase, if_neg h, ← List.cons_append, ih]
    rfl

theorem IsUtf8.foldCase_append {t : Text} (ht : t.IsUtf8) (s : Text) :
    foldCase (s ++ t) = foldCase s ++ foldCase t :=
  Text.foldCase_append ht.head

/-- A code point of two bytes is folded to one of two bytes or to a plain `i`. -/
theorem foldCodePoint_cases {cp : Nat} (h : 0x80 ≤ cp ∧ cp < 0x800) :
    foldCodePoint cp = 0x69 ∨ 0x80 ≤ foldCodePoint cp ∧ foldCodePoint cp < 0x800 := by
  unfold foldCodePoint
  split_ifs <;> omega

theorem foldCase_of_continuation {s : Text} (h : ∀ c ∈ s, isContinuation c = true) :
    foldCase s = s := by
  -- a continuation is neither an upper-case letter nor the first of two bytes
  fun_induction foldCase s with
  | case1 => rfl
  | case2 c =>
    have hc := h c List.mem_cons_self
    grind [isContinuation, Ascii.toLower, Ascii.isUpper]
  | case3 c d rest hpair _ =>
    have hc := h c List.mem_cons_self
    grind [isContinuation, isTwoByteLead]
  | case4 c d rest _ ih =>
    have hc := h c List.mem_cons_self
    rw [ih fun b hb => h b (List.mem_cons_of_mem _ hb)]
    grind [isContinuation, Ascii.toLower, Ascii.isUpper]

/-- Two bytes that write a code point are folded as one. -/
theorem foldCase_pair {lead next : UInt8} (hlead : 0xC2 ≤ lead ∧ lead ≤ 0xDF)
    (hnext : isContinuation next = true) :
    foldCase [lead, next] = encodeCodePoint (foldCodePoint (decodeTwoBytes lead next)) := by
  have hpair : (isTwoByteLead lead && isContinuation next) = true := by
    grind [isTwoByteLead]
  rw [foldCase, if_pos hpair, foldCase_nil, List.append_nil]

/-- Characters of three bytes and more are not folded. -/
theorem foldCase_longer {lead : UInt8} {tail : Text} (hlead : 0xE0 ≤ lead)
    (htail : ∀ c ∈ tail, isContinuation c = true) : foldCase (lead :: tail) = lead :: tail := by
  have hlower : Ascii.toLower lead = lead := by grind [Ascii.toLower, Ascii.isUpper]
  cases tail with
  | nil => rw [foldCase, hlower]
  | cons d rest =>
    have hpair : ¬ (isTwoByteLead lead && isContinuation d) = true := by
      grind [isTwoByteLead]
    rw [foldCase, if_neg hpair, hlower, foldCase_of_continuation htail]

end Text

open Text

namespace IsCharacter

variable {ch : Text}

/-- **What folding does to a character**: a byte of ASCII changes its letter case at most;
any other character becomes bytes outside ASCII or a plain `i`. -/
theorem foldCase_cases (h : IsCharacter ch) :
    (∃ c, ch = [c] ∧ foldCase ch = [Ascii.toLower c]) ∨
      foldCase ch ≠ [] ∧ (∀ b ∈ ch, 0x80 ≤ b) ∧ ∀ b ∈ foldCase ch, b = 0x69 ∨ 0x80 ≤ b := by
  -- only a character of two bytes is folded into another, and only one of these becomes ASCII
  cases h with
  | @ascii c h => exact Or.inl ⟨c, rfl, rfl⟩
  | @two lead next hlead hnext =>
    right
    have hfold := foldCase_pair hlead hnext
    have hcode : 0x80 ≤ decodeTwoBytes lead next ∧ decodeTwoBytes lead next < 0x800 := by
      simp only [UInt8.le_iff_toNat_le, UInt8.toNat_ofNat] at hlead
      unfold decodeTwoBytes
      omega
    refine ⟨?_, by grind [isContinuation], ?_⟩
    · rw [hfold, encodeCodePoint]
      split <;> exact List.cons_ne_nil _ _
    · rw [hfold]
      rcases foldCodePoint_cases hcode with heq | hwide
      · rw [heq]
        decide +kernel
      · rw [encodeCodePoint, if_neg (by omega)]
        simp only [List.mem_cons, List.not_mem_nil, or_false, UInt8.le_iff_toNat_le]
        rintro b (rfl | rfl) <;> right <;>
          simp only [UInt8.toNat_ofNat', UInt8.toNat_ofNat] <;> omega
  | @longer lead tail hlead _ htail =>
    right
    have htail' : ∀ c ∈ tail, 0x80 ≤ c := fun c hc => by grind [isContinuation]
    have hfold := foldCase_longer hlead htail
    have hwide : ∀ b ∈ lead :: tail, 0x80 ≤ b :=
      List.forall_mem_cons.2 ⟨UInt8.le_trans (by decide) hlead, htail'⟩
    rw [hfold]
    exact ⟨List.cons_ne_nil _ _, hwide, fun b hb => Or.inr (hwide b hb)⟩

theorem foldCase_ne_nil (h : IsCharacter ch) : foldCase ch ≠ [] := by
  rcases h.foldCase_cases with ⟨c, -, hfold⟩ | ⟨hne, -⟩
  · rw [hfold]
    exact List.cons_ne_nil _ _
  · exact hne

end IsCharacter

theorem Text.IsUtf8.foldCase_eq_nil_iff {s : Text} (hs : s.IsUtf8) :
    s.foldCase = [] ↔ s = [] := by
  induction hs using IsUtf8.induction with
  | nil => exact Iff.rfl
  | append ch t hch _ ht _ =>
    rw [ht.foldCase_append, List.append_eq_nil_iff, List.append_eq_nil_iff]
    exact ⟨fun h => absurd h.1 hch.foldCase_ne_nil, fun h => absurd h.1 hch.ne_nil⟩

/-- **A class that letter case does not matter to**: it has a letter of ASCII in both cases
or in none, and bytes outside ASCII count as the letter that one of them may fold to. -/
structure Caseless (p : UInt8 → Bool) : Prop where
  lower : ∀ c, p (Ascii.toLower c) = p c
  wide : ∀ c, 0x80 ≤ c → p c = p 0x69

namespace Caseless

theorem isNameStart : Caseless Ascii.isNameStart where
  lower c := by
    simp only [Ascii.isNameStart, Ascii.isAlpha, Ascii.isUpper, Ascii.isLower, Ascii.toLower]
    grind
  wide c h := by
    simp only [Ascii.isNameStart, Ascii.isAlpha, Ascii.isUpper, Ascii.isLower]
    grind

theorem isWord : Caseless Ascii.isWord where
  lower c := by
    rw [Ascii.isWord, isNameStart.lower, Ascii.isWord]
    congr 1
    grind [Ascii.isDigit, Ascii.toLower, Ascii.isUpper]
  wide c h := by
    have hc := isNameStart.wide c h
    rw [Ascii.isWord, hc]
    rfl

theorem continuesName : Caseless Name.continuesName where
  lower c := by
    rw [Name.continuesName, isWord.lower, Name.continuesName]
    grind [Ascii.toLower, Ascii.isUpper]
  wide c h := by
    rw [Name.continuesName, isWord.wide c h]
    rfl

theorem ne_comma : Caseless (· != Ascii.comma) where
  lower c := by grind [Ascii.toLower, Ascii.isUpper]
  wide c h := by grind

variable {p : UInt8 → Bool} {s ch : Text}

/-- A character and what it is folded to are in the class or not as a whole, and alike. -/
theorem exists_uniform (hp : Caseless p) (h : IsCharacter ch) :
    ∃ v, (∀ b ∈ ch, p b = v) ∧ ∀ b ∈ ch.foldCase, p b = v := by
  rcases h.foldCase_cases with ⟨c, rfl, hfold⟩ | ⟨-, hch, hfold⟩
  · refine ⟨p c, by simp, ?_⟩
    rw [hfold]
    simpa using hp.lower c
  · refine ⟨p 0x69, fun b hb => hp.wide b (hch b hb), fun b hb => ?_⟩
    rcases hfold b hb with rfl | hb
    · rfl
    · exact hp.wide b hb

/-- What is asked of some of the bytes of a text has one answer, if all of them agree. -/
theorem all_of_uniform {v : Bool} (hne : s ≠ []) (h : ∀ b ∈ s, p b = v) : s.all p = v := by
  cases v with
  | true => exact List.all_eq_true.2 h
  | false =>
    obtain ⟨c, rest, rfl⟩ := List.exists_cons_of_ne_nil hne
    rw [List.all_cons, h c List.mem_cons_self, Bool.false_and]

theorem any_head?_of_uniform {v : Bool} (hne : s ≠ []) (h : ∀ b ∈ s, p b = v) :
    s.head?.any p = v := by
  rw [List.head?_eq_some_head hne]
  exact h _ (List.head_mem hne)

theorem any_getLast?_of_uniform {v : Bool} (hne : s ≠ []) (h : ∀ b ∈ s, p b = v) :
    s.getLast?.any p = v := by
  rw [List.getLast?_eq_some_getLast hne]
  exact h _ (List.getLast_mem hne)

/-- **All of a text** is in the class if all of the folded text is. -/
theorem all_foldCase (hp : Caseless p) (hs : s.IsUtf8) : s.foldCase.all p = s.all p := by
  induction hs using IsUtf8.induction with
  | nil => rfl
  | append ch t hch _ ht ih =>
    obtain ⟨v, hv, hv'⟩ := hp.exists_uniform hch
    rw [ht.foldCase_append, List.all_append, List.all_append, ih,
      all_of_uniform hch.ne_nil hv, all_of_uniform hch.foldCase_ne_nil hv']

/-- **The front of a text** is in the class if the front of the folded text is. -/
theorem any_head?_foldCase (hp : Caseless p) (hs : s.IsUtf8) :
    s.foldCase.head?.any p = s.head?.any p := by
  induction hs using IsUtf8.induction with
  | nil => rfl
  | append ch t hch _ ht _ =>
    -- the first byte is one of the first character
    obtain ⟨v, hv, hv'⟩ := hp.exists_uniform hch
    rw [ht.foldCase_append, List.head?_append_of_ne_nil _ hch.ne_nil,
      List.head?_append_of_ne_nil _ hch.foldCase_ne_nil,
      any_head?_of_uniform hch.ne_nil hv, any_head?_of_uniform hch.foldCase_ne_nil hv']

/-- **The end of a text** is in the class if the end of the folded text is. -/
theorem any_getLast?_foldCase (hp : Caseless p) (hs : s.IsUtf8) :
    s.foldCase.getLast?.any p = s.getLast?.any p := by
  -- character by character, as the bytes of one are all of the property or all without it
  induction hs using IsUtf8.induction with
  | nil => rfl
  | append ch t hch _ ht ih =>
    obtain ⟨v, hv, hv'⟩ := hp.exists_uniform hch
    rw [ht.foldCase_append]
    -- the last byte is that of the rest, unless the character is the last
    by_cases hnil : t = []
    · subst hnil
      rw [foldCase_nil, List.append_nil, List.append_nil,
        any_getLast?_of_uniform hch.ne_nil hv, any_getLast?_of_uniform hch.foldCase_ne_nil hv']
    · have hnil' : t.foldCase ≠ [] := fun h => hnil (ht.foldCase_eq_nil_iff.1 h)
      rw [List.getLast?_append_of_ne_nil _ hnil, List.getLast?_append_of_ne_nil _ hnil', ih]

end Caseless

/-- **In front of a byte that continues a character** stands a byte outside ASCII. -/
theorem Text.IsUtf8.before_continuation {s t : Text} {c : UInt8} (h : (s ++ c :: t).IsUtf8)
    (hc : isContinuation c = true) : s.getLast?.any (0x80 ≤ ·) = true := by
  -- character by character, up to the one the byte stands in
  generalize hwhole : s ++ c :: t = whole at h
  induction h using IsUtf8.induction generalizing s with
  | nil => exact absurd hwhole (by simp)
  | append ch rest hch hch' hrest ih =>
    rcases List.append_eq_append_iff.1 hwhole with ⟨m, rfl, hm⟩ | ⟨m, rfl, rfl⟩
    · -- the byte stands in the first character, and not at its front
      cases m with
      | nil =>
        have hhead := hrest.head
        rw [← List.nil_append rest, ← hm, List.head?_cons, Option.any_some, hc] at hhead
        cases hhead
      | cons d m =>
        obtain rfl : c = d := (List.cons.inj hm).1
        -- what is in front of it in this character is outside ASCII, as the character has several
        -- bytes
        cases s with
        | nil =>
          have hhead := hch'.head
          rw [List.nil_append, List.head?_cons, Option.any_some, hc] at hhead
          cases hhead
        | cons b s =>
          rcases hch.foldCase_cases with ⟨_, hsingle, -⟩ | ⟨-, hwide, -⟩
          · rw [List.cons_append] at hsingle
            exact absurd (List.cons.inj hsingle).2 (by simp)
          · rw [List.getLast?_eq_some_getLast (List.cons_ne_nil b s), Option.any_some,
              decide_eq_true_eq]
            exact hwide _ (List.mem_append_left _ (List.getLast_mem _))
    · -- the byte stands behind the first character
      have hm := ih rfl
      have hne : m ≠ [] := by
        rintro rfl
        cases hm
      rwa [List.getLast?_append_of_ne_nil _ hne]

theorem Ascii.isWord_of_wide {c : UInt8} (h : 0x80 ≤ c) : isWord c = true := by
  rw [Caseless.isWord.wide c h]
  rfl

/-- **A character that is cut in two** leaves a word on either side. -/
theorem Text.IsUtf8.isWord_of_isContinuation {s t : Text} (h : (s ++ t).IsUtf8)
    (ht : t.head?.any isContinuation = true) :
    s.getLast?.any Ascii.isWord = true ∧ t.head?.any Ascii.isWord = true := by
  -- a continuation is a byte of a word, and so is the byte in front of it
  cases t with
  | nil => cases ht
  | cons c t =>
    have hbefore := h.before_continuation ht
    rw [List.head?_cons, Option.any_some, isContinuation, Bool.and_eq_true] at ht
    refine ⟨?_, Ascii.isWord_of_wide (of_decide_eq_true ht.1)⟩
    cases hlast : s.getLast? with
    | none =>
      rw [hlast] at hbefore
      cases hbefore
    | some d =>
      rw [hlast] at hbefore
      exact Ascii.isWord_of_wide (of_decide_eq_true hbefore)

/-! ### Folding any bytes -/

theorem encodeCodePoint_ne_nil (cp : Nat) : encodeCodePoint cp ≠ [] := by
  rw [encodeCodePoint]
  split <;> exact List.cons_ne_nil _ _

namespace Text

/-- Folding leaves something of every text but the empty one. -/
theorem foldCase_ne_nil {s : Text} (h : s ≠ []) : s.foldCase ≠ [] := by
  fun_cases foldCase s with
  | case1 => exact absurd rfl h
  | case2 c => exact List.cons_ne_nil _ _
  | case3 c d rest _ =>
    exact fun hnil => encodeCodePoint_ne_nil _ (List.append_eq_nil_iff.1 hnil).1
  | case4 c d rest _ => exact List.cons_ne_nil _ _

/-- A text begins with a word byte if it does when it is folded, whether it is UTF-8 or not. -/
theorem isWord_head_of_foldCase {s : Text} (h : s.foldCase.head?.any Ascii.isWord = true) :
    s.head?.any Ascii.isWord = true := by
  -- only the first byte counts, and it is folded alone or as the first of two
  fun_cases foldCase s with
  | case1 => exact h
  | case2 c =>
    rw [foldCase, List.head?_cons, Option.any_some, Caseless.isWord.lower] at h
    exact h
  | case3 c d rest hpair =>
    -- the lead byte of two is outside ASCII
    refine Ascii.isWord_of_wide (c := c) ?_
    grind [isTwoByteLead]
  | case4 c d rest hpair =>
    rw [foldCase, if_neg hpair, List.head?_cons, Option.any_some, Caseless.isWord.lower] at h
    exact h

/-- A text ends with a word byte if it does when it is folded. -/
theorem isWord_getLast_of_foldCase {s : Text}
    (h : s.foldCase.getLast?.any Ascii.isWord = true) : s.getLast?.any Ascii.isWord = true := by
  -- the last byte is the same in the rest, up to a rest that is empty
  fun_induction foldCase s with
  | case1 => exact h
  | case2 c =>
    rw [List.getLast?_singleton, Option.any_some, Caseless.isWord.lower] at h
    exact h
  | case3 c d rest hpair ih =>
    -- where the pair ends the text, its second byte is outside ASCII
    by_cases hnil : rest = []
    · subst hnil
      refine Ascii.isWord_of_wide (c := d) ?_
      grind [isContinuation]
    · rw [List.getLast?_append_of_ne_nil _ (foldCase_ne_nil hnil)] at h
      rw [List.getLast?_cons_cons, List.getLast?_cons, Option.any_some]
      have hlast := ih h
      rw [List.getLast?_eq_some_getLast hnil, Option.any_some] at hlast
      rw [List.getLast?_eq_some_getLast hnil, Option.getD_some]
      exact hlast
  | case4 c d rest hpair ih =>
    rw [List.getLast?_cons_cons]
    refine ih ?_
    rw [List.getLast?_cons] at h
    rw [List.getLast?_eq_some_getLast (foldCase_ne_nil (List.cons_ne_nil d rest))] at h ⊢
    exact h

end Text

end AssayRules
