import AssayRules.Name
import Mathlib.Data.List.TakeWhile
import Mathlib.Tactic.Common

/-!
# Where bare names are found

A text that is found as a bare name in itself is called bare (`Name.IsBare`). Such a text is
known by its bytes: a name start, then bytes that continue a name, a last byte that is no
blank, and not a reserved word (`Name.isBare_iff`). What is found anywhere is bare
(`Name.isBare_of_mem_bareNames`).

The search goes over a text in strides, and so do the lemmas on it: each says what is found
behind one kind of front. Bytes outside words are skipped, a word that begins with a digit is
skipped whole, and a bare text is found if only blanks stand between it and the end of its
run.
-/

namespace AssayRules

namespace Text

/-! ### Trimming -/

variable {p : UInt8 → Bool} {s t : Text}

theorem dropEndWhile_append_of_all (h : ∀ c ∈ t, p c = true) :
    dropEndWhile p (s ++ t) = dropEndWhile p s := by
  have hall : ∀ c ∈ t.reverse, p c = true := fun c hc => h c (List.mem_reverse.1 hc)
  rw [dropEndWhile, List.reverse_append, List.dropWhile_append_of_pos hall, dropEndWhile]

theorem dropEndWhile_of_not (h : s.getLast?.any p = false) : dropEndWhile p s = s := by
  rw [dropEndWhile]
  cases hs : s.reverse with
  | nil => rw [List.reverse_eq_nil_iff.1 hs]; rfl
  | cons c rest =>
    have hlast : s.getLast? = some c := by rw [List.getLast?_eq_head?_reverse, hs]; rfl
    rw [hlast, Option.any_some] at h
    rw [List.dropWhile_cons_of_neg (by simp [h]), ← hs, List.reverse_reverse]

theorem dropWhile_of_not (h : s.head?.any p = false) : s.dropWhile p = s := by
  cases s with
  | nil => rfl
  | cons c rest => exact List.dropWhile_cons_of_neg (by simpa using h)

theorem mem_of_mem_dropEndWhile {c : UInt8} (h : c ∈ dropEndWhile p s) : c ∈ s :=
  List.mem_reverse.1 ((List.dropWhile_suffix p).mem (List.mem_reverse.1 h))

theorem mem_of_mem_trim {c : UInt8} (h : c ∈ trim s) : c ∈ s :=
  (List.dropWhile_suffix _).mem (mem_of_mem_dropEndWhile h)

theorem length_dropEndWhile_le : (dropEndWhile p s).length ≤ s.length := by
  have hle := (List.dropWhile_suffix p (l := s.reverse)).length_le
  rw [List.length_reverse] at hle
  rwa [dropEndWhile, List.length_reverse]

theorem length_trim_le : (trim s).length ≤ s.length :=
  Nat.le_trans length_dropEndWhile_le (List.dropWhile_suffix _).length_le

theorem trim_append_of_isSpace (hs : s.head?.any Ascii.isSpace = false)
    (hs' : s.getLast?.any Ascii.isSpace = false) (ht : ∀ c ∈ t, Ascii.isSpace c = true) :
    trim (s ++ t) = s := by
  cases s with
  | nil =>
    rw [trim, List.nil_append, List.dropWhile_eq_nil_iff.2 ht]
    rfl
  | cons c rest =>
    rw [trim, dropWhile_of_not (s := c :: rest ++ t) hs, dropEndWhile_append_of_all ht,
      dropEndWhile_of_not hs']

theorem trim_of_not (hs : s.head?.any Ascii.isSpace = false)
    (hs' : s.getLast?.any Ascii.isSpace = false) : trim s = s := by
  have := trim_append_of_isSpace (t := []) hs hs' (by simp)
  rwa [List.append_nil] at this

/-- What no byte satisfies, neither end does. -/
theorem any_ends_of_forall_mem (h : ∀ c ∈ s, p c = false) :
    s.head?.any p = false ∧ s.getLast?.any p = false := by
  constructor
  · cases hc : s.head? with
    | none => rfl
    | some c => exact h c (List.mem_of_head? hc)
  · cases hc : s.getLast? with
    | none => rfl
    | some c => exact h c (List.mem_of_getLast? hc)

theorem exists_append_dropEndWhile (p : UInt8 → Bool) (s : Text) :
    ∃ t, s = dropEndWhile p s ++ t ∧ ∀ c ∈ t, p c = true := by
  refine ⟨(s.reverse.takeWhile p).reverse, ?_, fun c hc => ?_⟩
  · rw [dropEndWhile, ← List.reverse_append, List.takeWhile_append_dropWhile,
      List.reverse_reverse]
  · exact List.mem_takeWhile_imp (List.mem_reverse.1 hc)

theorem exists_trim (s : Text) : ∃ before behind, s = before ++ trim s ++ behind ∧
    (∀ c ∈ before, Ascii.isSpace c = true) ∧ ∀ c ∈ behind, Ascii.isSpace c = true := by
  obtain ⟨behind, hbehind, hspace⟩ :=
    exists_append_dropEndWhile Ascii.isSpace (s.dropWhile Ascii.isSpace)
  refine ⟨s.takeWhile Ascii.isSpace, behind, ?_, fun c hc => List.mem_takeWhile_imp hc, hspace⟩
  rw [trim, List.append_assoc, ← hbehind, List.takeWhile_append_dropWhile]

theorem trim_append_right (ht : ∀ c ∈ t, Ascii.isSpace c = true) : trim (s ++ t) = trim s := by
  -- they go from the front if there is nothing else, and from the end otherwise
  rw [trim, List.dropWhile_append, trim]
  split
  · rename_i hempty
    rw [List.isEmpty_iff.1 hempty, List.dropWhile_eq_nil_iff.2 ht]
  · exact dropEndWhile_append_of_all ht

theorem trim_append_left (ht : ∀ c ∈ t, Ascii.isSpace c = true) : trim (t ++ s) = trim s := by
  rw [trim, List.dropWhile_append_of_pos ht, trim]

/-- A first byte that is no blank stays the first. -/
theorem exists_trim_cons {c : UInt8} (h : Ascii.isSpace c = false) (s : Text) :
    ∃ t, trim (c :: s) = c :: t := by
  -- the blanks can only be behind, as the text begins with none
  have htrim : trim (c :: s) = dropEndWhile Ascii.isSpace (c :: s) := by
    rw [trim, dropWhile_of_not (p := Ascii.isSpace) (s := c :: s) h]
  obtain ⟨blanks, happend, hblanks⟩ := exists_append_dropEndWhile Ascii.isSpace (c :: s)
  rw [← htrim] at happend
  cases hcut : trim (c :: s) with
  | nil =>
    rw [hcut, List.nil_append] at happend
    have hspace := hblanks c (happend ▸ List.mem_cons_self)
    rw [h] at hspace
    cases hspace
  | cons d cut =>
    rw [hcut, List.cons_append] at happend
    exact ⟨cut, by rw [(List.cons.inj happend).1]⟩

theorem getLast?_dropEndWhile : (dropEndWhile p s).getLast?.any p = false := by
  rw [dropEndWhile, List.getLast?_reverse]
  cases h : s.reverse.dropWhile p with
  | nil => rfl
  | cons c rest =>
    have hc := List.head?_dropWhile_not p s.reverse
    rw [h] at hc
    simpa using hc

theorem getLast?_trim (s : Text) : (trim s).getLast?.any Ascii.isSpace = false :=
  getLast?_dropEndWhile

theorem head?_trim (s : Text) : (trim s).head?.any Ascii.isSpace = false := by
  obtain ⟨behind, hbehind, -⟩ :=
    exists_append_dropEndWhile Ascii.isSpace (s.dropWhile Ascii.isSpace)
  change s.dropWhile Ascii.isSpace = trim s ++ behind at hbehind
  cases htrim : trim s with
  | nil => rfl
  | cons c rest =>
    -- it is the first byte that was not dropped from the front
    have hc := List.head?_dropWhile_not Ascii.isSpace s
    rw [hbehind, htrim] at hc
    simpa using hc

/-- Trimming once is enough. -/
theorem trim_trim (s : Text) : trim (trim s) = trim s :=
  trim_of_not (head?_trim s) (getLast?_trim s)

end Text

namespace Name

/-! ### Bytes -/

theorem continuesName_of_isWord {c : UInt8} (h : Ascii.isWord c = true) :
    continuesName c = true := by
  simp [continuesName, h]

theorem isSpace_of_isWord {c : UInt8} (h : Ascii.isWord c = true) : Ascii.isSpace c = false := by
  simp only [Ascii.isWord, Ascii.isNameStart, Ascii.isAlpha, Ascii.isUpper, Ascii.isLower,
    Ascii.isDigit, Ascii.isSpace] at h ⊢
  grind

theorem isWord_of_isSpace {c : UInt8} (h : Ascii.isSpace c = true) : Ascii.isWord c = false := by
  by_contra hword
  rw [isSpace_of_isWord (Bool.not_eq_false _ ▸ hword)] at h
  cases h

theorem isWord_of_not_continuesName {c : UInt8} (h : continuesName c = false) :
    Ascii.isWord c = false := by
  by_contra hword
  rw [continuesName_of_isWord (Bool.not_eq_false _ ▸ hword)] at h
  cases h

/-- What continues a name is part of a word or a blank. -/
theorem isSpace_of_continuesName {c : UInt8} (h : continuesName c = true)
    (hc : Ascii.isWord c = false) : Ascii.isSpace c = true := by
  simp only [continuesName, hc, Ascii.isSpace] at h ⊢
  grind

/-! ### Bare texts -/

/-- **A text is bare** if it is what is found in it, as a whole. -/
def IsBare (name : Text) : Prop := bareNames name = [name]

instance (name : Text) : Decidable (IsBare name) :=
  inferInstanceAs (Decidable (bareNames name = [name]))

variable {s t name : Text} {c : UInt8}

/-- What is found at a name start, and what is searched next. -/
theorem bareNames_cons_of_isNameStart (h : Ascii.isNameStart c = true) (s : Text) :
    bareNames (c :: s) =
      if isReserved (Text.trim (c :: s.takeWhile continuesName)) then
        bareNames (s.dropWhile continuesName)
      else Text.trim (c :: s.takeWhile continuesName)
        :: bareNames (s.dropWhile continuesName) := by
  rw [bareNames, if_pos h]

theorem bareNames_cons_of_not_isWord (h : Ascii.isWord c = false) (s : Text) :
    bareNames (c :: s) = bareNames s := by
  have hstart : ¬ Ascii.isNameStart c = true :=
    fun hc => by simp [Ascii.isWord_of_isNameStart hc] at h
  rw [bareNames, if_neg hstart, if_neg (by simp [h])]

theorem bareNames_append_of_not_isWord (h : ∀ c ∈ s, Ascii.isWord c = false) (t : Text) :
    bareNames (s ++ t) = bareNames t := by
  induction s with
  | nil => rfl
  | cons c s ih =>
    rw [List.cons_append, bareNames_cons_of_not_isWord (h c List.mem_cons_self),
      ih fun d hd => h d (List.mem_cons_of_mem _ hd)]

theorem mem_of_mem_canonical (h : c ∈ canonical name) : c ∈ name :=
  Text.mem_of_mem_trim (Text.mem_of_mem_dropEndWhile (Text.mem_of_mem_trim h))

/-- What is found has no bytes but those of what is searched. -/
theorem mem_of_mem_bareNames (h : name ∈ bareNames s) (hc : c ∈ name) : c ∈ s := by
  -- along the scan, which only ever takes bytes off the text
  fun_induction bareNames s with
  | case1 => cases h
  | case2 d rest _ _ _ _ ih => exact List.mem_cons_of_mem _ ((List.dropWhile_suffix _).mem (ih h))
  | case3 d rest _ _ _ _ ih =>
    rcases List.mem_cons.1 h with rfl | h
    · rcases List.mem_cons.1 (Text.mem_of_mem_trim hc) with rfl | hc
      · exact List.mem_cons_self
      · exact List.mem_cons_of_mem _ ((List.takeWhile_prefix _).mem hc)
    · exact List.mem_cons_of_mem _ ((List.dropWhile_suffix _).mem (ih h))
  | case4 d rest _ _ ih => exact List.mem_cons_of_mem _ ((List.dropWhile_suffix _).mem (ih h))
  | case5 d rest _ _ ih => exact List.mem_cons_of_mem _ (ih h)

theorem length_le_of_mem_bareNames (h : name ∈ bareNames s) : name.length ≤ s.length := by
  -- a name is cut out of what is left, and what is left gets shorter
  fun_induction bareNames s with
  | case1 => simp at h
  | case2 c rest _ _ _ _ ih =>
    exact Nat.le_succ_of_le (Nat.le_trans (ih h) (List.dropWhile_suffix _).length_le)
  | case3 c rest _ _ _ _ ih =>
    rcases List.mem_cons.1 h with rfl | h
    · refine Nat.le_trans Text.length_trim_le ?_
      rw [List.length_cons, List.length_cons]
      exact Nat.succ_le_succ (List.takeWhile_prefix _).length_le
    · exact Nat.le_succ_of_le (Nat.le_trans (ih h) (List.dropWhile_suffix _).length_le)
  | case4 c rest _ _ ih =>
    exact Nat.le_succ_of_le (Nat.le_trans (ih h) (List.dropWhile_suffix _).length_le)
  | case5 c rest _ _ ih => exact Nat.le_succ_of_le (ih h)

/-- **The bytes of a bare text.** -/
theorem isBare_iff : IsBare name ↔
    name.head?.any Ascii.isNameStart = true ∧ (∀ d ∈ name, continuesName d = true) ∧
      name.getLast?.any Ascii.isSpace = false ∧ isReserved name = false := by
  -- what is found behind the first byte is too short to be all of it
  have hshorter : ∀ {c rest t}, t.length ≤ rest.length → c :: rest ∉ bareNames t := by
    intro c rest t hle hmem
    have := length_le_of_mem_bareNames hmem
    rw [List.length_cons] at this
    omega
  cases name with
  | nil => simp [IsBare]
  | cons c rest =>
    have hdrop : ∀ p : UInt8 → Bool, (rest.dropWhile p).length ≤ rest.length :=
      fun p => (List.dropWhile_suffix p).length_le
    rw [IsBare]
    -- a text that does not start a name is passed over up to a shorter one
    by_cases hstart : Ascii.isNameStart c = true
    · have hword := Ascii.isWord_of_isNameStart hstart
      rw [bareNames_cons_of_isNameStart hstart, List.forall_mem_cons]
      constructor
      · intro h
        split at h
        · exact absurd (h ▸ List.mem_singleton_self _) (hshorter (hdrop continuesName))
        · rename_i hreserved
          obtain ⟨hfound, -⟩ := List.cons.inj h
          -- nothing was cut off, so the run is all of the text
          have hall : rest.takeWhile continuesName = rest := by
            refine (List.takeWhile_prefix _).eq_of_length_le ?_
            have hle := Text.length_trim_le (s := c :: rest.takeWhile continuesName)
            rw [hfound, List.length_cons, List.length_cons] at hle
            omega
          rw [hall] at hfound hreserved
          refine ⟨hstart, ⟨continuesName_of_isWord hword, List.takeWhile_eq_self_iff.1 hall⟩,
            ?_, by rwa [hfound, Bool.not_eq_true] at hreserved⟩
          rw [← hfound, Text.trim]
          exact Text.getLast?_dropEndWhile
      · -- the run is all of the text, so that nothing is cut off it and nothing is left behind it
        rintro ⟨-, ⟨-, hall⟩, hlast, hreserved⟩
        have htrim : Text.trim (c :: rest) = c :: rest :=
          Text.trim_of_not (isSpace_of_isWord hword) hlast
        rw [List.takeWhile_eq_self_iff.2 hall, htrim, List.dropWhile_eq_nil_iff.2 hall,
          bareNames_nil, if_neg (by simp [hreserved])]
    · refine iff_of_false (fun h => ?_) (fun h => hstart h.1)
      rw [bareNames, if_neg hstart] at h
      split at h
      · exact absurd (h ▸ List.mem_singleton_self _) (hshorter (hdrop Ascii.isWord))
      · exact absurd (h ▸ List.mem_singleton_self _) (hshorter (Nat.le_refl _))

/-- **What begins and ends with a word** is its own canonical spelling. -/
theorem canonical_eq_of_isWord (hhead : name.head?.any Ascii.isWord = true)
    (hlast : name.getLast?.any Ascii.isWord = true) : canonical name = name := by
  -- no blank and no comma stands at an edge that is part of a word
  have hedge : ∀ {o : Option UInt8}, o.any Ascii.isWord = true →
      o.any Ascii.isSpace = false ∧ o.any (· == Ascii.comma) = false := by
    intro o ho
    cases o with
    | none => cases ho
    | some c =>
      refine ⟨isSpace_of_isWord ho, beq_eq_false_iff_ne.2 ?_⟩
      rintro rfl
      cases ho
  have htrim : Text.trim name = name := Text.trim_of_not (hedge hhead).1 (hedge hlast).1
  rw [canonical, htrim, Text.dropEndWhile_of_not (hedge hlast).2, htrim]

namespace IsBare

theorem ne_nil (h : IsBare name) : name ≠ [] := by
  rintro rfl
  cases (isBare_iff.1 h).1

theorem exists_eq_cons (h : IsBare name) :
    ∃ c rest, name = c :: rest ∧ Ascii.isNameStart c = true := by
  obtain ⟨c, rest, rfl⟩ := List.exists_cons_of_ne_nil h.ne_nil
  exact ⟨c, rest, rfl, (isBare_iff.1 h).1⟩

theorem isWord_head (h : IsBare name) : name.head?.any Ascii.isWord = true := by
  obtain ⟨c, rest, rfl, hc⟩ := h.exists_eq_cons
  exact Ascii.isWord_of_isNameStart hc

/-- The last byte of a bare text is part of a word. -/
theorem isWord_getLast (h : IsBare name) : name.getLast?.any Ascii.isWord = true := by
  obtain ⟨-, hall, hlast, -⟩ := isBare_iff.1 h
  rw [List.getLast?_eq_some_getLast h.ne_nil, Option.any_some] at hlast ⊢
  -- a byte that continues a name and is no part of a word is a blank
  by_contra hword
  have hspace := isSpace_of_continuesName (hall _ (List.getLast_mem h.ne_nil))
    (Bool.not_eq_true _ ▸ hword)
  rw [hlast] at hspace
  cases hspace

theorem isSpace_head (h : IsBare name) : name.head?.any Ascii.isSpace = false := by
  obtain ⟨c, rest, rfl, hc⟩ := h.exists_eq_cons
  exact isSpace_of_isWord (Ascii.isWord_of_isNameStart hc)

theorem comma_notMem (h : IsBare name) : Ascii.comma ∉ name := by
  intro hmem
  cases (isBare_iff.1 h).2.1 _ hmem

/-- A bare text is its own canonical spelling. -/
theorem canonical_eq (h : IsBare name) : canonical name = name :=
  canonical_eq_of_isWord h.isWord_head h.isWord_getLast

end IsBare

/-! ### What is found behind a front -/

/-- **A bare text is found** in front of a run in which only blanks are left. -/
theorem bareNames_append_of_isBare (h : IsBare name)
    (ht : ∀ c ∈ t.takeWhile continuesName, Ascii.isSpace c = true) :
    bareNames (name ++ t) = name :: bareNames t := by
  obtain ⟨-, hall, hlast, hreserved⟩ := isBare_iff.1 h
  have hhead := h.isSpace_head
  obtain ⟨c, rest, rfl, hc⟩ := h.exists_eq_cons
  have hrest : ∀ d ∈ rest, continuesName d = true := (List.forall_mem_cons.1 hall).2
  have htrim : Text.trim (c :: (rest ++ t.takeWhile continuesName)) = c :: rest :=
    Text.trim_append_of_isSpace hhead hlast ht
  have hblanks : ∀ d ∈ t.takeWhile continuesName, Ascii.isWord d = false :=
    fun d hd => isWord_of_isSpace (ht d hd)
  -- the run is the name with the blanks behind it, which the search may as well go over again
  rw [List.cons_append, bareNames_cons_of_isNameStart hc,
    List.takeWhile_append_of_pos hrest, htrim, List.dropWhile_append_of_pos hrest,
    if_neg (by simp [hreserved]),
    ← bareNames_append_of_not_isWord hblanks (t.dropWhile continuesName),
    List.takeWhile_append_dropWhile]

/-- **A word that begins with a digit** is skipped. -/
theorem bareNames_append_of_isDigit {w : Text} (hw : w.head?.any Ascii.isDigit = true)
    (hall : ∀ c ∈ w, Ascii.isWord c = true) (ht : t.head?.any Ascii.isWord = false) :
    bareNames (w ++ t) = bareNames t := by
  cases w with
  | nil => rfl
  | cons c w =>
    have hc : Ascii.isDigit c = true := hw
    have hstart : ¬ Ascii.isNameStart c = true := by
      simp only [Ascii.isDigit, Ascii.isNameStart, Ascii.isAlpha, Ascii.isUpper,
        Ascii.isLower] at hc ⊢
      grind
    rw [List.cons_append, bareNames, if_neg hstart, if_pos (hall c List.mem_cons_self),
      List.dropWhile_append_of_pos (List.forall_mem_cons.1 hall).2, Text.dropWhile_of_not ht]

/-- **What is found is bare.** -/
theorem isBare_of_mem_bareNames (h : name ∈ bareNames s) : IsBare name := by
  -- along the scan, where a name is what a run is trimmed to
  fun_induction bareNames s with
  | case1 => simp at h
  | case2 c rest _ _ _ _ ih => exact ih h
  | case3 c rest hstart found _ hreserved ih =>
    rcases List.mem_cons.1 h with rfl | h
    · have hword := Ascii.isWord_of_isNameStart hstart
      have hrun : ∀ d ∈ c :: rest.takeWhile continuesName, continuesName d = true :=
        List.forall_mem_cons.2 ⟨continuesName_of_isWord hword, fun d hd =>
          List.mem_takeWhile_imp hd⟩
      -- nothing is trimmed from the front, where the name starts
      have hspace := isSpace_of_isWord hword
      have hfound :
          found = Text.dropEndWhile Ascii.isSpace (c :: rest.takeWhile continuesName) := by
        change Text.dropEndWhile _ (List.dropWhile _ _) = _
        rw [Text.dropWhile_of_not (p := Ascii.isSpace) (s := c :: _) hspace]
      obtain ⟨cut, hcut⟩ := Text.exists_trim_cons hspace (rest.takeWhile continuesName)
      obtain ⟨blanks, happend, -⟩ :=
        Text.exists_append_dropEndWhile Ascii.isSpace (c :: rest.takeWhile continuesName)
      rw [← hfound] at happend
      refine isBare_iff.2 ⟨?_, fun d hd => hrun d ?_, ?_, by simpa using hreserved⟩
      · change (Text.trim _).head?.any _ = true
        rw [hcut]
        exact hstart
      · rw [happend]
        exact List.mem_append_left _ hd
      · rw [hfound]
        exact Text.getLast?_dropEndWhile
    · exact ih h
  | case4 c rest _ _ ih => exact ih h
  | case5 c rest _ _ ih => exact ih h

/-- What is found is in canonical spelling. -/
theorem map_canonical_bareNames (s : Text) : (bareNames s).map canonical = bareNames s := by
  conv_rhs => rw [← List.map_id (bareNames s)]
  exact List.map_congr_left fun _ hname => (isBare_of_mem_bareNames hname).canonical_eq

/-! ### Searching in parts -/

/-- A byte that ends every run separates what is found. -/
theorem bareNames_append_cons (hc : continuesName c = false) (s t : Text) :
    bareNames (s ++ c :: t) = bareNames s ++ bareNames t := by
  have hword := isWord_of_not_continuesName hc
  -- neither a run nor a word goes on over the byte
  have htake : ∀ {p : UInt8 → Bool}, p c = false → ∀ s : Text,
      (s ++ c :: t).takeWhile p = s.takeWhile p := by
    intro p hp s
    rw [List.takeWhile_append, List.takeWhile_cons_of_neg (by simp [hp]), List.append_nil]
    split
    · rename_i hlength
      exact ((List.takeWhile_prefix p).eq_of_length hlength).symm
    · rfl
  have hdrop : ∀ {p : UInt8 → Bool}, p c = false → ∀ s : Text,
      (s ++ c :: t).dropWhile p = s.dropWhile p ++ c :: t := by
    intro p hp s
    rw [List.dropWhile_append, List.dropWhile_cons_of_neg (by simp [hp])]
    split
    · rename_i hempty
      rw [List.isEmpty_iff.1 hempty, List.nil_append]
    · rfl
  -- along the scan of the front, as the byte stops every run and every word in it
  fun_induction bareNames s with
  | case1 => rw [List.nil_append, bareNames_cons_of_not_isWord hword, List.nil_append]
  | case2 d rest hstart found others hreserved ih =>
    rw [List.cons_append, bareNames_cons_of_isNameStart hstart, htake hc, hdrop hc,
      if_pos hreserved, ih]
  | case3 d rest hstart found others hreserved ih =>
    rw [List.cons_append, bareNames_cons_of_isNameStart hstart, htake hc, hdrop hc,
      if_neg hreserved, ih, List.cons_append]
  | case4 d rest hstart hdigit ih =>
    rw [List.cons_append, bareNames, if_neg hstart, if_pos hdigit, hdrop hword, ih]
  | case5 d rest hstart hdigit ih =>
    rw [List.cons_append, bareNames, if_neg hstart, if_neg hdigit, ih]

/-- Blanks at the end make no difference to what is found. -/
theorem bareNames_append_of_isSpace (ht : ∀ c ∈ t, Ascii.isSpace c = true) (s : Text) :
    bareNames (s ++ t) = bareNames s := by
  have hword : ∀ c ∈ t, Ascii.isWord c = false := fun c hc => isWord_of_isSpace (ht c hc)
  have hnone : ∀ blanks, (∀ c ∈ blanks, c ∈ t) → bareNames blanks = [] := by
    intro blanks h
    have := bareNames_append_of_not_isWord (fun c hc => hword c (h c hc)) []
    rwa [List.append_nil, bareNames_nil] at this
  -- a run may go on into the blanks, and loses them again when it is trimmed
  have htrim : ∀ d s, Text.trim (d :: (s ++ t).takeWhile continuesName)
      = Text.trim (d :: s.takeWhile continuesName) := by
    intro d s
    rw [List.takeWhile_append]
    split
    · rename_i hlength
      rw [(List.takeWhile_prefix _).eq_of_length hlength, ← List.cons_append]
      exact Text.trim_append_right fun c hc => ht c ((List.takeWhile_prefix _).mem hc)
    · rfl
  have hdrop : ∀ p s, bareNames ((s ++ t).dropWhile p) = bareNames (s.dropWhile p ++ t) := by
    intro p s
    rw [List.dropWhile_append]
    split
    · rename_i hempty
      rw [List.isEmpty_iff.1 hempty, List.nil_append, hnone t fun _ hc => hc,
        hnone _ fun c hc => (List.dropWhile_suffix p).mem hc]
    · rfl
  -- along the scan of the front, each stride of which may go on into the blanks
  fun_induction bareNames s with
  | case1 => exact hnone t fun _ hc => hc
  | case2 d rest hstart found others hreserved ih =>
    rw [List.cons_append, bareNames_cons_of_isNameStart hstart, htrim, hdrop,
      if_pos hreserved, ih]
  | case3 d rest hstart found others hreserved ih =>
    rw [List.cons_append, bareNames_cons_of_isNameStart hstart, htrim, hdrop,
      if_neg hreserved, ih]
  | case4 d rest hstart hdigit ih =>
    rw [List.cons_append, bareNames, if_neg hstart, if_pos hdigit, hdrop, ih]
  | case5 d rest hstart hdigit ih =>
    rw [List.cons_append, bareNames, if_neg hstart, if_neg hdigit, ih]

end Name

end AssayRules
