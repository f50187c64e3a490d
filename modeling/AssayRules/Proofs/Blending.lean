import AssayRules.Proofs.CellNumber
import AssayRules.Proofs.Color
import AssayRules.Proofs.Names
import AssayRules.Proofs.Precision
import Mathlib.Data.Rat.Floor

/-!
# What a blend of colors shows

Colors that are blended are first read, then averaged channel by channel, and the average is
written again. Each of the three is told here by what it comes to: what is read as a color are the
texts that spell it (`Rgb.ofText?_eq_some_iff`), the average is that of the values with a half
rounded up (`Rgb.isAverage_average`), and what is written is read back (`Rgb.ofText?_text`).

A spelling may be short or long, with small letters or capital ones, but it has six digits in the
end, and these are the color (`Rgb.ofDigits?_eq_some_iff`). So blending cannot tell one spelling
from another, and as a sum cannot tell one order from another, it depends on no more than on which
colors there are, and how many of each (`blend_shows`).

The average is worked out in doubles, and both the quotient and what comes of adding a half are
rounded. Up to `2 ^ 44` colors this does no harm: the exact quotient is either at a half or above,
or so far below that no rounding closes the gap (`Rgb.floor_value_eq`). Only so far is the average
the exact one; what is said of orders and spellings is said of any number of colors.
-/

namespace AssayRules

namespace Rgb

open CellNumber

variable {c : Rgb} {s digits : Text} {values : List ℕ}

/-! ### How a color may be written -/

/-- The values of the six digits of a color, two for each channel. -/
def digitValues (c : Rgb) : List ℕ :=
  [c.red, c.green, c.blue].flatMap fun v => [v.toNat / 16, v.toNat % 16]

/-- **What spells a color**: blanks, possibly a `#`, its six digits in either letter case or three
of which each counts twice, and blanks. -/
inductive Spells (c : Rgb) : Text → Prop
  | digits (before hash digits behind : Text) (values : List ℕ)
      (before_blank : ∀ b ∈ before, Ascii.isSpace b = true)
      (hash_or_not : hash = [Ascii.hash] ∨ hash = [])
      (areDigits : List.Forall₂ IsDigit digits values)
      (values_eq : values = c.digitValues ∨ values.flatMap (fun d => [d, d]) = c.digitValues)
      (behind_blank : ∀ b ∈ behind, Ascii.isSpace b = true) :
      Spells c (before ++ (hash ++ digits) ++ behind)

theorem channel_eq_iff {high low : ℕ} (hhigh : high < 16) (hlow : low < 16) {v : UInt8} :
    channel high low = v ↔ high = v.toNat / 16 ∧ low = v.toNat % 16 := by
  rw [channel, ← UInt8.toNat_inj, UInt8.toNat_ofNat']
  have hv := v.toNat_lt
  omega

/-- Six digits are read as the color that has them. -/
theorem ofDigits?_six_eq_some_iff {r r' g g' b b' : ℕ}
    (hvalues : ∀ d ∈ [r, r', g, g', b, b'], d < 16) :
    ofDigits? [r, r', g, g', b, b'] = some c ↔ [r, r', g, g', b, b'] = c.digitValues := by
  obtain ⟨red, green, blue⟩ := c
  obtain ⟨hr, hr', hg, hg', hb, hb'⟩ :
      r < 16 ∧ r' < 16 ∧ g < 16 ∧ g' < 16 ∧ b < 16 ∧ b' < 16 := by simpa using hvalues
  change some (Rgb.mk (channel r r') (channel g g') (channel b b')) = _ ↔
    _ = [red.toNat / 16, red.toNat % 16, green.toNat / 16, green.toNat % 16, blue.toNat / 16,
      blue.toNat % 16]
  simp only [Option.some.injEq, Rgb.mk.injEq, List.cons.injEq, and_true]
  rw [channel_eq_iff hr hr', channel_eq_iff hg hg', channel_eq_iff hb hb', and_assoc, and_assoc]

/-- **Digits are read as a color** if they are its six, or come to these when each is doubled. -/
theorem ofDigits?_eq_some_iff (hvalues : ∀ d ∈ values, d < 16) :
    ofDigits? values = some c ↔
      values = c.digitValues ∨ values.flatMap (fun d => [d, d]) = c.digitValues := by
  -- six digits are no doubled row of six, and three are not six, so that one way is open in each
  -- case
  have hsix : c.digitValues.length = 6 := rfl
  have hdoubled : (values.flatMap fun d => [d, d]).length = 2 * values.length := by
    simp [List.length_flatMap, Nat.mul_comm]
  unfold ofDigits?
  split
  · -- three digits are read as the six that they come to
    rename_i r g b
    rw [or_iff_right fun h => by rw [← h] at hsix; cases hsix]
    exact ofDigits?_six_eq_some_iff (by simpa using hvalues)
  · rename_i r r' g g' b b'
    rw [or_iff_left fun h => by rw [h, hsix] at hdoubled; cases hdoubled]
    exact ofDigits?_six_eq_some_iff hvalues
  · -- any other number of digits is neither that of a color nor half of it
    rename_i hthree hother
    refine iff_of_false (by rintro ⟨⟩) (not_or.2 ⟨hother _ _ _ _ _ _, fun h => ?_⟩)
    rw [h, hsix] at hdoubled
    obtain ⟨r, g, b, rfl⟩ := List.length_eq_three.1 (by omega : values.length = 3)
    exact hthree r g b rfl

theorem mapM_hexDigit?_eq_some_iff :
    s.mapM Ascii.hexDigit? = some values ↔ List.Forall₂ IsDigit s values := by
  -- digit by digit, as each is read without regard to the others
  induction s generalizing values with
  | nil => simp [eq_comm]
  | cons b rest ih =>
    rw [List.mapM_cons, List.forall₂_cons_left_iff]
    simp only [Option.bind_eq_bind, Option.bind_eq_some_iff, hexDigit?_eq_some_iff, ih,
      Option.pure_def, Option.some.injEq]
    constructor
    · rintro ⟨d, hd, others, hothers, rfl⟩
      exact ⟨d, others, hd, hothers, rfl⟩
    · rintro ⟨d, others, hd, hothers, rfl⟩
      exact ⟨d, hd, others, hothers, rfl⟩

theorem lt_sixteen_of_mem (h : List.Forall₂ IsDigit digits values) {d : ℕ} (hd : d ∈ values) :
    d < 16 := by
  induction h with
  | nil => cases hd
  | cons hdigit _ ih =>
    rcases List.mem_cons.1 hd with rfl | hd
    · rcases hdigit with h | h <;> exact (List.getElem?_eq_some_iff.1 h).1
    · exact ih hd

/-- No digit is a blank, and none is a `#`. -/
theorem isSpace_eq_false_and_ne_hash {b : UInt8} {d : ℕ} (h : IsDigit b d) :
    Ascii.isSpace b = false ∧ b ≠ Ascii.hash := by
  -- neither a blank nor the `#` has a value as a digit
  have hall : ∀ b : Fin 256, Ascii.isSpace (UInt8.ofFin b) = true ∨ UInt8.ofFin b = Ascii.hash →
      Ascii.hexDigit? (UInt8.ofFin b) = none := by
    decide +kernel
  have hsome := hexDigit?_eq_some_iff.2 h
  refine ⟨Bool.eq_false_iff.2 fun hspace => ?_, fun hhash => ?_⟩
  · cases (hall b.toFin (Or.inl hspace)).symm.trans hsome
  · cases (hall b.toFin (Or.inr hhash)).symm.trans hsome

theorem exists_withoutHash (s : Text) :
    ∃ hash, (hash = [Ascii.hash] ∨ hash = []) ∧ s = hash ++ withoutHash s := by
  cases s with
  | nil => exact ⟨[], Or.inr rfl, rfl⟩
  | cons b rest =>
    rw [withoutHash]
    split
    · rename_i hhash
      exact ⟨[Ascii.hash], Or.inl rfl, by rw [hhash]; rfl⟩
    · exact ⟨[], Or.inr rfl, rfl⟩

theorem withoutHash_append_digits {hash : Text} (hhash : hash = [Ascii.hash] ∨ hash = [])
    (hdigits : List.Forall₂ IsDigit digits values) : withoutHash (hash ++ digits) = digits := by
  rcases hhash with rfl | rfl
  · rfl
  · cases hdigits with
    | nil => rfl
    | cons hd _ => exact if_neg (isSpace_eq_false_and_ne_hash hd).2

/-- **The texts that are read as a color are those that spell it.** -/
theorem ofText?_eq_some_iff : ofText? s = some c ↔ c.Spells s := by
  have hread : ofText? s = some c ↔ ∃ values,
      List.Forall₂ IsDigit (withoutHash s.trim) values ∧ ofDigits? values = some c := by
    simp only [ofText?, Option.bind_eq_bind, Option.bind_eq_some_iff, mapM_hexDigit?_eq_some_iff]
  rw [hread]
  constructor
  · -- what is trimmed and taken off in front is what `Spells` allows around the digits
    rintro ⟨values, hdigits, hvalues⟩
    obtain ⟨before, behind, hs, hbefore, hbehind⟩ := Text.exists_trim s
    obtain ⟨hash, hhash, htrim⟩ := exists_withoutHash s.trim
    rw [htrim] at hs
    rw [hs]
    exact .digits before hash _ behind values hbefore hhash hdigits
      ((ofDigits?_eq_some_iff fun _ => lt_sixteen_of_mem hdigits).1 hvalues) hbehind
  · rintro ⟨before, hash, digits, behind, values, hbefore, hhash, hdigits, hvalues, hbehind⟩
    -- neither the `#` nor a digit is a blank
    have hblank : ∀ b ∈ hash ++ digits, Ascii.isSpace b = false := by
      intro b hb
      rcases List.mem_append.1 hb with hb | hb
      · rcases hhash with rfl | rfl
        · rw [List.mem_singleton.1 hb]
          rfl
        · cases hb
      · obtain ⟨d, hd⟩ := exists_isDigit_of_mem hdigits hb
        exact (isSpace_eq_false_and_ne_hash hd).1
    obtain ⟨hfirst, hlast⟩ := Text.any_ends_of_forall_mem hblank
    -- so trimming stops at them, and reading finds the digits themselves
    refine ⟨values, ?_, (ofDigits?_eq_some_iff fun _ => lt_sixteen_of_mem hdigits).2 hvalues⟩
    rwa [Text.trim_append_right hbehind, Text.trim_append_left hbefore,
      Text.trim_of_not hfirst hlast, withoutHash_append_digits hhash hdigits]

/-- **A color is read back** from how it is written. -/
theorem ofText?_text (c : Rgb) : ofText? c.text = some c := by
  -- a byte is written by its two halves, each of which has a digit
  have hhex : ∀ d, d < 16 → IsDigit (hexByte d) d := by
    simp only [IsDigit]
    decide
  have hdigits : List.Forall₂ IsDigit (c.digitValues.map hexByte) c.digitValues := by
    rw [List.forall₂_map_left_iff, List.forall₂_same]
    intro d hd
    obtain ⟨v, -, hd⟩ := List.mem_flatMap.1 hd
    have hv := v.toNat_lt
    refine hhex d ?_
    simp only [List.mem_cons, List.not_mem_nil, or_false] at hd
    omega
  have hspells := Spells.digits (c := c) [] [Ascii.hash] _ [] _ (by simp) (Or.inl rfl) hdigits
    (Or.inl rfl) (by simp)
  exact ofText?_eq_some_iff.2 hspells

/-! ### Averages -/

/-- The values that some colors have in a channel. -/
def channelValues (channel : Rgb → UInt8) (colors : List Rgb) : List ℕ :=
  colors.map fun c => (channel c).toNat

/-- **The average of colors**: in each channel that of the values, a half rounded up. -/
def IsAverage (average : Rgb) (colors : List Rgb) : Prop :=
  ∀ channel ∈ [red, green, blue], (channel average).toNat
    = ⌊((channelValues channel colors).sum : ℚ) / colors.length + 1 / 2⌋₊

@[simp] theorem length_channelValues (channel : Rgb → UInt8) (colors : List Rgb) :
    (channelValues channel colors).length = colors.length := List.length_map _

/-- A word has room for the sum of as many bytes as there can be colors. -/
theorem toNat_channelSum (values : List UInt8) :
    (channelSum values).toNat = (values.map UInt8.toNat).sum % 2 ^ 64 := by
  induction values with
  | nil => rfl
  | cons v rest ih =>
    rw [channelSum, UInt64.toNat_add, ih, List.map_cons, List.sum_cons, UInt8.toNat_toUInt64,
      Nat.add_mod_mod]

variable {colors : List Rgb}

theorem sum_channelValues_le (channel : Rgb → UInt8) (colors : List Rgb) :
    (channelValues channel colors).sum ≤ colors.length * 255 := by
  have hsum := (channelValues channel colors).sum_le_card_nsmul 255 fun n hn => by
    obtain ⟨c, -, rfl⟩ := List.mem_map.1 hn
    have hc := (channel c).toNat_lt
    omega
  rwa [length_channelValues, smul_eq_mul] at hsum

theorem channel_average (channel : Rgb → UInt8) (hchannel : channel ∈ [red, green, blue])
    (colors : List Rgb) : channel (average colors) = averageChannel (colors.map channel) := by
  simp only [List.mem_cons, List.not_mem_nil, or_false] at hchannel
  rcases hchannel with rfl | rfl | rfl <;> rfl

/-! ### Double precision -/

section Double

variable {sum n k quotient total : ℕ}

/-- Neither the quotient nor what comes of adding a half is rounded past a number that has one
digit behind the point at most. -/
theorem le_value_of_isNearest (hn : 0 < n) (hk : k < 2 ^ 8) (hbelow : 2 * n * k ≤ 2 * sum + n)
    (hquotient : IsNearest Binary64.value (Set.Iic Binary64.infinityBits) (sum / n) quotient)
    (htotal : IsNearest Binary64.value (Set.Iic Binary64.infinityBits)
      (Binary64.value quotient + 1 / 2) total) : k ≤ Binary64.value total := by
  have hnonneg : 0 ≤ Binary64.value total := by
    rw [Binary64.value]
    positivity
  rcases Nat.eq_zero_or_pos k with rfl | hpos
  · exact_mod_cast hnonneg
  -- the quotient is rounded, but not below `k - 1/2`, which is itself a double
  have hhalf : (2 * k - 1 : ℕ) / 2 ^ 1 ≤ Binary64.value quotient := by
    refine Binary64.div_two_pow_le_value hquotient (by omega) (by omega) ?_
    rw [div_le_div_iff₀ (by norm_num) (by exact_mod_cast hn), Nat.cast_pred (by omega)]
    have hbelow' : (2 * n * k : ℚ) ≤ 2 * sum + n := by exact_mod_cast hbelow
    push_cast
    linarith
  -- and the sum not below `k`, for the same reason
  have hwhole : (k : ℚ) / 2 ^ 0 ≤ Binary64.value total := by
    refine Binary64.div_two_pow_le_value htotal (by omega) (by omega) ?_
    rw [Nat.cast_pred (by omega)] at hhalf
    push_cast at hhalf ⊢
    linarith
  simpa using hwhole

/-- A quotient that is below a half by what a denominator up to `2 ^ 44` makes out stays below it
in the digits that a double has. -/
theorem value_lt_of_isNearest (hn : 0 < n) (hn' : n ≤ 2 ^ 44) (hk : k < 2 ^ 8)
    (habove : 2 * sum + n < (k + 1) * (2 * n))
    (hquotient : IsNearest Binary64.value (Set.Iic Binary64.infinityBits) (sum / n) quotient)
    (htotal : IsNearest Binary64.value (Set.Iic Binary64.infinityBits)
      (Binary64.value quotient + 1 / 2) total) : Binary64.value total < k + 1 := by
  -- an exact quotient under `k + 1/2` stays under it by `1 / 2n` at least, and for so few colors
  -- the grid of `2 ^ -45` can tell
  have hhalf : Binary64.value quotient ≤ ((2 * k + 1) * 2 ^ 44 - 1 : ℕ) / 2 ^ 45 := by
    refine Binary64.value_le_div_two_pow hquotient (by omega) (by omega) ?_
    rw [div_le_div_iff₀ (by exact_mod_cast hn) (by norm_num), Nat.cast_pred (by omega)]
    have habove' : (2 * sum + n + 1 : ℚ) ≤ (k + 1) * (2 * n) := by exact_mod_cast habove
    have hn'' : (n : ℚ) ≤ 2 ^ 44 := by exact_mod_cast hn'
    push_cast
    linarith
  -- the half does not close the gap that is left on this grid
  have hwhole : Binary64.value total ≤ ((k + 1) * 2 ^ 45 - 1 : ℕ) / 2 ^ 45 := by
    refine Binary64.value_le_div_two_pow htotal (by omega) (by omega) ?_
    rw [Nat.cast_pred (by omega)] at hhalf ⊢
    push_cast at hhalf ⊢
    linarith
  rw [Nat.cast_pred (by omega)] at hwhole
  push_cast at hwhole
  linarith

/-- **Double precision is enough for an average** of up to `2 ^ 44` values: if the quotient is
rounded to a double, and so is what comes of adding a half, the whole part is the exact quotient
with a half rounded up. -/
theorem floor_value_eq (hn : 0 < n) (hn' : n ≤ 2 ^ 44) (hk : (2 * sum + n) / (2 * n) < 2 ^ 8)
    (hquotient : IsNearest Binary64.value (Set.Iic Binary64.infinityBits) (sum / n) quotient)
    (htotal : IsNearest Binary64.value (Set.Iic Binary64.infinityBits)
      (Binary64.value quotient + 1 / 2) total) :
    ⌊Binary64.value total⌋₊ = (2 * sum + n) / (2 * n) := by
  have hbelow := Nat.mul_div_le (2 * sum + n) (2 * n)
  have habove := (Nat.div_lt_iff_lt_mul (Nat.mul_pos two_pos hn)).1
    (Nat.lt_succ_self ((2 * sum + n) / (2 * n)))
  -- the whole part is known once the sum lies between it and the next
  generalize (2 * sum + n) / (2 * n) = k at *
  have hlow := le_value_of_isNearest hn hk hbelow hquotient htotal
  exact (Nat.floor_eq_iff (k.cast_nonneg.trans hlow)).2
    ⟨hlow, value_lt_of_isNearest hn hn' hk habove hquotient htotal⟩

/-- **A quotient of words with a half rounded up**, by way of doubles. -/
theorem toNat_toUInt8_div {sum n : UInt64} (hn : 0 < n.toNat) (hn' : n.toNat ≤ 2 ^ 44)
    (hsum : sum.toNat ≤ n.toNat * 255) :
    (sum.toFloat / n.toFloat + 0.5).toUInt8.toNat
      = (2 * sum.toNat + n.toNat) / (2 * n.toNat) := by
  have hnpos : (0 : ℚ) < n.toNat := by exact_mod_cast hn
  -- both operands are whole numbers that a double has room for
  obtain ⟨a, ha, hvalue, hfloat⟩ := Binary64.exists_toFloat_eq (n := sum) (by omega)
  obtain ⟨b, hb, hvalue', hfloat'⟩ := Binary64.exists_toFloat_eq (n := n) (by omega)
  have hbpos : 0 < b := by
    rw [← Binary64.strictMono_value.lt_iff_lt, hvalue', Binary64.value_zero]
    exact hnpos
  -- neither their quotient nor what comes of adding a half is behind the finite doubles
  obtain ⟨quotient, hquotient, hdiv⟩ := Binary64.roundsTo_div ha hbpos hb
  rw [hvalue, hvalue'] at hquotient
  -- the bounds are whole numbers or halves, so that rounding does not pass them
  have hquotient255 : Binary64.value quotient ≤ (255 : ℕ) / 2 ^ 0 := by
    refine Binary64.value_le_div_two_pow hquotient (by decide) (by decide) ?_
    rw [pow_zero, div_one, div_le_iff₀ hnpos, mul_comm]
    exact_mod_cast hsum
  have hhalf : Binary64.value (2 ^ 52 + 1021 * 2 ^ 52) = 1 / 2 := by
    rw [Binary64.value_add (Or.inr le_rfl) (by decide)]
    norm_num
  obtain ⟨total, htotal, hadd⟩ := Binary64.roundsTo_add
    (Binary64.lt_infinityBits (by decide) hquotient255)
    (by decide : 2 ^ 52 + 1021 * 2 ^ 52 < Binary64.infinityBits)
  rw [hhalf] at htotal
  -- and with the half it stays below 256, where a byte can hold the whole part
  have htotal256 : Binary64.value total ≤ (511 : ℕ) / 2 ^ 1 := by
    refine Binary64.value_le_div_two_pow htotal (by decide) (by decide) ?_
    push_cast at hquotient255 ⊢
    linarith
  have hbyte : (sum.toFloat / n.toFloat + 0.5).toUInt8
      = (Float.ofBits (UInt64.ofNat total)).toUInt8 := by
    rw [hfloat, hfloat', hdiv, ← hadd]
    rfl
  rw [hbyte, Binary64.toNat_toUInt8 (Binary64.lt_infinityBits (by decide) htotal256)]
  · exact floor_value_eq hn hn' (Nat.div_lt_of_lt_mul (by omega)) hquotient htotal
  · push_cast at htotal256
    linarith

end Double

/-- **The average of a channel fits into a byte**, as no value is above 255, and in whole numbers
it is the quotient of the sum with a half rounded up. -/
theorem toNat_averageChannel (hne : colors ≠ []) (hlength : colors.length ≤ 2 ^ 44)
    (channel : Rgb → UInt8) :
    (averageChannel (colors.map channel)).toNat
      = (2 * (channelValues channel colors).sum + colors.length) / (2 * colors.length) := by
  have hpos := List.length_pos_iff.2 hne
  have hle := sum_channelValues_le channel colors
  -- a word has room for the sum and for the count
  have hsum : (channelSum (colors.map channel)).toNat = (channelValues channel colors).sum := by
    have hmod := toNat_channelSum (colors.map channel)
    rw [List.map_map] at hmod
    exact hmod.trans (Nat.mod_eq_of_lt (hle.trans_lt (by omega)))
  have hcount : (UInt64.ofNat (colors.map channel).length).toNat = colors.length := by
    rw [List.length_map, UInt64.toNat_ofNat']
    exact Nat.mod_eq_of_lt (by omega)
  rw [averageChannel, toNat_toUInt8_div (by omega) (by omega) (by omega), hsum, hcount]

/-- **The average that is computed is the average.** -/
theorem isAverage_average (hne : colors ≠ []) (hlength : colors.length ≤ 2 ^ 44) :
    (average colors).IsAverage colors := by
  intro channel hchannel
  have hpos : (0 : ℚ) < colors.length := by exact_mod_cast List.length_pos_iff.2 hne
  -- from the whole numbers of the code to the floor that the average is defined by
  calc (channel (average colors)).toNat
      = (2 * (channelValues channel colors).sum + colors.length) / (2 * colors.length) := by
        rw [channel_average channel hchannel, toNat_averageChannel hne hlength]
    _ = ⌊((2 * (channelValues channel colors).sum + colors.length : ℕ) : ℚ)
          / ((2 * colors.length : ℕ) : ℚ)⌋₊ := (Nat.floor_div_eq_div _ _).symm
    _ = ⌊((channelValues channel colors).sum : ℚ) / colors.length + 1 / 2⌋₊ := by
        congr 1
        push_cast
        field_simp

/-- **An average lies between the values**, in each channel. -/
theorem IsAverage.mem_Icc {average : Rgb} (h : average.IsAverage colors) (hne : colors ≠ [])
    {channel : Rgb → UInt8} (hchannel : channel ∈ [red, green, blue]) {least greatest : ℕ}
    (hleast : ∀ n ∈ channelValues channel colors, least ≤ n)
    (hgreatest : ∀ n ∈ channelValues channel colors, n ≤ greatest) :
    (channel average).toNat ∈ Set.Icc least greatest := by
  have hpos : (0 : ℚ) < colors.length := by exact_mod_cast List.length_pos_iff.2 hne
  have hlow := (channelValues channel colors).card_nsmul_le_sum least hleast
  have hhigh := (channelValues channel colors).sum_le_card_nsmul greatest hgreatest
  rw [length_channelValues, smul_eq_mul] at hlow hhigh
  -- the exact average lies between the bounds, and the floor of half a unit more does not leave
  -- them
  have hlow' : (least : ℚ) ≤ (channelValues channel colors).sum / colors.length := by
    rw [le_div_iff₀ hpos, mul_comm]
    exact_mod_cast hlow
  have hhigh' : ((channelValues channel colors).sum : ℚ) / colors.length ≤ greatest := by
    rw [div_le_iff₀ hpos, mul_comm]
    exact_mod_cast hhigh
  rw [h channel hchannel]
  constructor
  · exact Nat.le_floor (by linarith)
  · -- half a unit more does not reach the next whole number
    refine Nat.lt_succ_iff.1 ((Nat.floor_lt (by positivity)).2 ?_)
    rw [Nat.cast_succ]
    linarith

end Rgb

/-! ### Blends -/

/-- Two colors or more, of which some can be read, show the average of those. -/
theorem blend_eq_text {colors : List Text} (htwo : 2 ≤ colors.length)
    (hread : colors.filterMap Rgb.ofText? ≠ []) :
    blend colors = (Rgb.average (colors.filterMap Rgb.ofText?)).text := by
  match colors, htwo with
  | first :: second :: rest, _ =>
    rw [blend_cons_cons]
    split
    · rename_i hnone
      exact absurd hnone hread
    · rfl

/-- Two texts or more, none of which can be read as a color, show the least of them. -/
theorem blend_eq_leastText {colors : List Text} (htwo : 2 ≤ colors.length)
    (hnone : colors.filterMap Rgb.ofText? = []) :
    blend colors ∈ colors ∧ ∀ s ∈ colors, blend colors ≤ s := by
  match colors, htwo with
  | first :: second :: rest, _ =>
    rw [blend_cons_cons, hnone]
    exact ⟨leastText_mem _ _, fun s hs => leastText_le hs⟩

/-- **What two colors or more show**, in any order and any spelling. -/
theorem blend_shows (colors : List Text) (htwo : 2 ≤ colors.length) :
    let read := colors.filterMap Rgb.ofText?
    (∀ others, colors.Perm others → blend others = blend colors) ∧
    (read ≠ [] → ∃ average : Rgb, blend colors = average.text ∧
      Rgb.ofText? (blend colors) = some average ∧
      (read.length ≤ 2 ^ 44 → average.IsAverage read ∧
        ∀ channel ∈ [Rgb.red, Rgb.green, Rgb.blue], ∃ least greatest,
          (Rgb.channelValues channel read).min? = some least ∧
          (Rgb.channelValues channel read).max? = some greatest ∧
          least ≤ (channel average).toNat ∧ (channel average).toNat ≤ greatest)) ∧
    (∀ before s s' behind, colors = before ++ s :: behind →
      ∀ c : Rgb, c.Spells s → c.Spells s' → blend (before ++ s' :: behind) = blend colors) ∧
    (read = [] → blend colors ∈ colors ∧ ∀ s ∈ colors, blend colors ≤ s) := by
  intro read
  -- the order by permuted sums, the average by its rounding, a spelling by what it is read as, and
  -- the fallback by the least text
  refine ⟨fun others h => (blend_perm h).symm, fun hne => ?_, ?_,
    fun hnone => blend_eq_leastText htwo hnone⟩
  · have hblend : blend colors = (Rgb.average read).text := blend_eq_text htwo hne
    refine ⟨Rgb.average read, hblend, by rw [hblend, Rgb.ofText?_text], fun hlength => ?_⟩
    have haverage := Rgb.isAverage_average hne hlength
    refine ⟨haverage, fun channel hchannel => ?_⟩
    have hvalues : Rgb.channelValues channel read ≠ [] := by simpa [Rgb.channelValues] using hne
    obtain ⟨least, hleast⟩ := Option.isSome_iff_exists.1 (List.isSome_min?_of_ne_nil hvalues)
    obtain ⟨greatest, hgreatest⟩ :=
      Option.isSome_iff_exists.1 (List.isSome_max?_of_ne_nil hvalues)
    exact ⟨least, greatest, hleast, hgreatest, haverage.mem_Icc hne hchannel
      (List.min?_eq_some_iff.1 hleast).2 (List.max?_eq_some_iff.1 hgreatest).2⟩
  · rintro before s s' behind rfl c hs hs'
    -- both spellings are read as the one color
    have hs := Rgb.ofText?_eq_some_iff.2 hs
    have hs' := Rgb.ofText?_eq_some_iff.2 hs'
    have hread : (before ++ s' :: behind).filterMap Rgb.ofText?
        = (before ++ s :: behind).filterMap Rgb.ofText? := by
      simp only [List.filterMap_append, List.filterMap_cons, hs, hs']
    have hne : (before ++ s :: behind).filterMap Rgb.ofText? ≠ [] := by
      simp only [List.filterMap_append, List.filterMap_cons, hs]
      simp
    rw [blend_eq_text htwo hne, blend_eq_text (by simpa using htwo) (hread ▸ hne), hread]

/-- A short red and a blue, with an entry between them that is no color. -/
theorem blend_shows_of_red_and_blue :
    let colors := [utf8 " #F00", utf8 "kırmızı", utf8 "0000ff"]
    2 ≤ colors.length ∧ blend colors = utf8 "#800080" ∧
      Rgb.IsAverage ⟨128, 0, 128⟩ [⟨255, 0, 0⟩, ⟨0, 0, 255⟩] := by
  intro colors
  have htwo : 2 ≤ colors.length := by decide
  obtain ⟨-, hread, -⟩ := blend_shows colors htwo
  have hcolors : colors.filterMap Rgb.ofText? = [⟨255, 0, 0⟩, ⟨0, 0, 255⟩] := by decide
  rw [hcolors] at hread
  obtain ⟨average, -, hreads, haverage⟩ := hread (List.cons_ne_nil _ _)
  -- the channels are computed in doubles, and what is shown is read back
  have hblend : blend colors = utf8 "#800080" := by decide +kernel
  have hpurple : Rgb.ofText? (blend colors) = some ⟨128, 0, 128⟩ := by
    rw [hblend]
    decide
  obtain rfl := Option.some.inj (hreads.symm.trans hpurple)
  exact ⟨htwo, hblend, (haverage (by decide)).1⟩

end AssayRules
