import AssayRules.Proofs.Double

/-!
# Sums and quotients in double precision

Doubles are added and divided as if the result were known exactly, and were then rounded: to the
nearest double, ties to the even one (`Binary64.roundsTo_add`, `Binary64.roundsTo_div`). A whole
number becomes a double in the same way (`roundsTo_toFloat`), and a double that becomes a byte loses
what stands behind its point (`Binary64.toNat_toUInt8`). All this is told for doubles without a
minus, by their bits.

What the arithmetic of doubles keeps of a result is a whole number and two bits: whether the rest is
half or more, and whether anything is left beyond that. That is as much as rounding asks about a
quotient (`Double.roundedMantissa_ofQuotient`), and it is still what is kept of the quotient when
the divisor is doubled (`Double.shiftRight_ofQuotient`). So every result is a quotient of whole
numbers that is rounded in some place, and if that is the last one the number has room for
(`Double.lastPlace`), then the nearest double is found (`Double.roundsTo_roundWithAccuracy`).
-/

namespace AssayRules

open Float.Model Float.Model.UnpackedFloat

namespace Double

/-- **A quotient as the arithmetic of doubles keeps it**: its whole part, whether the rest is half
or more, and whether anything is left beyond that. -/
def ofQuotient (n d : ℕ) : ExtendedMantissa where
  mantissa := n / d
  roundBit := decide (d ≤ 2 * (n % d))
  stickyBit := decide (2 * (n % d) % d ≠ 0)

variable {n d : ℕ}

/-- The rest is nothing, less than half, half, or more. -/
theorem ofQuotient_cases (n : ℕ) (hd : 0 < d) :
    (n % d = 0 ∧ ofQuotient n d = ⟨n / d, false, false⟩) ∨
    (n % d ≠ 0 ∧ 2 * (n % d) < d ∧ ofQuotient n d = ⟨n / d, false, true⟩) ∨
    (2 * (n % d) = d ∧ ofQuotient n d = ⟨n / d, true, false⟩) ∨
    (d < 2 * (n % d) ∧ ofQuotient n d = ⟨n / d, true, true⟩) := by
  have hlt := Nat.mod_lt n hd
  -- the rest against half of the divisor
  rw [ofQuotient]
  generalize n % d = rest at *
  rcases Nat.eq_zero_or_pos rest with rfl | hpos
  · exact Or.inl ⟨rfl, by simp [hd.ne']⟩
  · rcases lt_trichotomy (2 * rest) d with h | h | h
    · refine Or.inr (Or.inl ⟨hpos.ne', h, ?_⟩)
      rw [Nat.mod_eq_of_lt h]
      simp [h, hpos.ne']
    · refine Or.inr (Or.inr (Or.inl ⟨h, ?_⟩))
      rw [h, Nat.mod_self]
      simp
    · refine Or.inr (Or.inr (Or.inr ⟨h, ?_⟩))
      have hmod : 2 * rest % d ≠ 0 := by
        rw [Nat.mod_eq_sub_mod h.le, Nat.mod_eq_of_lt (by omega)]
        omega
      simp [h.le, hmod]

theorem ofMantissaAndAccuracy_div (n : ℕ) (hd : 0 < d) :
    ExtendedMantissa.ofMantissaAndAccuracy (n / d) (accuracyOfFraction (n % d) d)
      = ofQuotient n d := by
  rw [accuracyOfFraction]
  -- what is found out about the rest is which of the four cases it is
  rcases ofQuotient_cases n hd with ⟨h, hq⟩ | ⟨hne, h, hq⟩ | ⟨h, hq⟩ | ⟨h, hq⟩ <;> rw [hq]
  · rw [if_pos h]
    rfl
  · rw [if_neg hne, compare_lt_iff_lt.2 h]
    rfl
  · rw [if_neg (by omega), compare_eq_iff_eq.2 h]
    rfl
  · rw [if_neg (by omega), compare_gt_iff_gt.2 h]
    rfl

theorem ofMantissaAndAccuracy_exact (n : ℕ) :
    ExtendedMantissa.ofMantissaAndAccuracy n .exact = ofQuotient n 1 := by
  have h := ofMantissaAndAccuracy_div n Nat.one_pos
  rwa [Nat.div_one, Nat.mod_one] at h

/-- **Rounding what is kept is rounding the quotient.** -/
theorem roundedMantissa_ofQuotient (n : ℕ) (hd : 0 < d) :
    (ofQuotient n d).roundedMantissa = Binary64.roundQuotient n d := by
  rw [Binary64.roundQuotient]
  -- in each of the four cases both round the whole part up or leave it
  rcases ofQuotient_cases n hd with ⟨h, hq⟩ | ⟨-, h, hq⟩ | ⟨h, hq⟩ | ⟨h, hq⟩ <;> rw [hq]
  · rw [if_pos (by omega)]
    rfl
  · rw [if_pos h]
    rfl
  · rw [if_neg (by omega), if_neg (by omega)]
    rfl
  · rw [if_neg (by omega), if_pos h]
    rfl

theorem shiftRightOne_ofQuotient (n : ℕ) (hd : 0 < d) :
    (ofQuotient n d).shiftRightOne = ofQuotient n (d * 2) := by
  have hlt := Nat.mod_lt n hd
  -- of the doubled divisor the rest is the old one, and the bit that went out with it
  have hdiv : n / d / 2 = n / (d * 2) := Nat.div_div_eq_div_mul n d 2
  have hmod : n % (d * 2) = n % d + d * (n / d % 2) := Nat.mod_mul
  have hsticky : 2 * (n % (d * 2)) % (d * 2) = 2 * (n % d) := by
    rw [hmod, Nat.mul_comm d 2, Nat.mul_mod_mul_left, Nat.add_mul_mod_self_left,
      Nat.mod_eq_of_lt hlt]
  have hright : ofQuotient n (d * 2) = ⟨n / d / 2,
      decide (d * 2 ≤ 2 * (n % d + d * (n / d % 2))), decide (2 * (n % d) ≠ 0)⟩ := by
    rw [ofQuotient, hsticky, hmod, hdiv]
  rw [hright]
  -- the bit that the whole part loses decides on the half
  rcases Nat.mod_two_eq_zero_or_one (n / d) with h | h <;>
    rcases ofQuotient_cases n hd with ⟨h', hq⟩ | ⟨hne, h', hq⟩ | ⟨h', hq⟩ | ⟨h', hq⟩ <;>
    simp [hq, ExtendedMantissa.shiftRightOne, h] <;> omega

/-- **Shifting what is kept is dividing the quotient.** -/
theorem shiftRight_ofQuotient (n s : ℕ) (hd : 0 < d) :
    ofQuotient n d >>> s = ofQuotient n (d * 2 ^ s) := by
  induction s with
  | zero => rw [Nat.pow_zero, Nat.mul_one]; rfl
  | succ s ih =>
    have hsucc : ofQuotient n d >>> (s + 1) = (ofQuotient n d >>> s).shiftRightOne := rfl
    rw [hsucc, ih, shiftRightOne_ofQuotient n (Nat.mul_pos hd (Nat.two_pow_pos s)), Nat.pow_succ,
      Nat.mul_assoc]

/-! ### Packing -/

theorem toNat_packComponents (exponent : BitVec 11) (mantissa : BitVec 52) :
    (packComponents .binary64 .positive exponent mantissa).toNat
      = exponent.toNat * 2 ^ 52 + mantissa.toNat := by
  rw [packComponents, BitVec.toNat_append, BitVec.toNat_append,
    ← Nat.shiftLeft_add_eq_or_of_lt mantissa.isLt, Nat.shiftLeft_eq]
  change (0 <<< 11 ||| exponent.toNat) * 2 ^ 52 + _ = _
  rw [Nat.zero_shiftLeft, Nat.zero_or]

/-- **The bits of a significand in its place**, up to those of infinity. -/
theorem toNat_pack {k j : ℕ} (hpos : 0 < k) (hk : k < 2 ^ 53) (hj : j = 0 ∨ 2 ^ 52 ≤ k) :
    (UnpackedFloat.pack .binary64 (.finite .positive k (j - 1074) hpos)).toNat
      = min (k + j * 2 ^ 52) Binary64.infinityBits := by
  have hplace : ((j - 1074 : ℤ) + Format.binary64.exponentBias + (52 : ℕ)).toNat = j + 1 := by
    change ((j - 1074 : ℤ) + 1023 + 52).toNat = _
    omega
  rw [UnpackedFloat.pack]
  dsimp only
  rw [hplace, Binary64.infinityBits]
  split_ifs with hinfinite hnormal
  · -- the place is behind those of the finite doubles
    rw [packedInfinity, toNat_packComponents]
    change 2 ^ 11 ≤ j + 1 + 1 at hinfinite
    change (2 ^ 11 - 1) * 2 ^ 52 + 0 = _
    omega
  · -- the leading bit is not packed, but counts as one place more
    have hlow : 2 ^ 52 ≤ k := by
      have hlog : k.log2 = 52 := Nat.succ.inj hnormal
      exact hlog ▸ Nat.log2_self_le hpos.ne'
    rw [toNat_packComponents, BitVec.toNat_ofNat, BitVec.toNat_ofNat]
    change ¬ 2 ^ 11 ≤ j + 1 + 1 at hinfinite
    omega
  · have hlow : k < 2 ^ 52 := by
      by_contra hge
      have hlog : k.log2 = 52 := (Nat.log2_eq_iff hpos.ne').2 ⟨by omega, hk⟩
      exact hnormal (congrArg Nat.succ hlog)
    obtain rfl : j = 0 := by omega
    rw [toNat_packComponents, BitVec.toNat_ofNat, BitVec.toNat_ofNat, Nat.mod_eq_of_lt hlow]
    omega

/-- The double that a result is packed into. -/
def packed (f : UnpackedFloat) : Float := ⟨Float.Model.pack f⟩

theorem packed_of_toNat {f : UnpackedFloat} {bits : ℕ}
    (h : (UnpackedFloat.pack .binary64 f).toNat = bits) :
    packed f = Float.ofBits (UInt64.ofNat bits) := by
  have hbits : (packed f).toBits.toNat = bits := h
  rw [← hbits, UInt64.ofNat_toNat, Float.ofBits_toBits]

theorem packed_unpack (x : Float) : packed x.toModel.unpack = x := by
  obtain ⟨⟨bits, valid⟩⟩ := x
  rw [← Float.toBits_inj]
  exact congrArg UInt64.ofBitVec (pack_unpack_of_valid valid (by decide))

/-! ### Rounding -/

/-- The place in which a number is rounded: that of the last bit it has room for. -/
def lastPlace (mantissa : ℕ) (exponent : ℤ) : ℤ := max (mantissa.log2 + exponent - 52) (-1074)

theorem targetExponent_eq (mantissa : ℕ) (exponent : ℤ) :
    Format.binary64.targetExponent (totalExponent mantissa exponent)
      = lastPlace mantissa exponent := by
  change max ((mantissa.log2 : ℤ) + 1 + exponent - 53) (-1074) = max _ _
  congr 1
  omega

/-- **Shifting into a place** that is not behind the last one. -/
theorem shiftToTargetExponent_div (n : ℕ) (hd : 0 < d) {e : ℤ} {s : ℕ}
    (hs : e + s = lastPlace (n / d) e) :
    shiftToTargetExponent .binary64 (n / d) e (accuracyOfFraction (n % d) d) =
      (ofQuotient n (d * 2 ^ s), e + s) := by
  have hshift : (lastPlace (n / d) e - e).toNat = s := by omega
  rw [shiftToTargetExponent, targetExponent_eq, shiftToExponent, hshift,
    ofMantissaAndAccuracy_div n hd, shiftRight_ofQuotient n s hd]

theorem shiftToTargetExponent_exact {k : ℕ} {e : ℤ} {s : ℕ} (hs : e + s = lastPlace k e) :
    shiftToTargetExponent .binary64 k e .exact = (ofQuotient k (2 ^ s), e + s) := by
  have h := shiftToTargetExponent_div (n := k) Nat.one_pos (by rwa [Nat.div_one])
  rwa [Nat.div_one, Nat.one_mul, Nat.mod_one] at h

/-- What was rounded is shifted on by one place if it has run over. -/
theorem exists_shiftToTargetExponent {k j : ℕ} (hk : k ≤ 2 ^ 53) (hj : j = 0 ∨ 2 ^ 52 ≤ k) :
    ∃ k' j' : ℕ, ((shiftToTargetExponent .binary64 k (j - 1074) .exact).1.mantissa = k' ∧
      (shiftToTargetExponent .binary64 k (j - 1074) .exact).2 = j' - 1074) ∧
      k' + j' * 2 ^ 52 = k + j * 2 ^ 52 ∧ k' < 2 ^ 53 ∧ (j' = 0 ∨ 2 ^ 52 ≤ k') := by
  rcases hk.lt_or_eq with hlt | rfl
  · -- with fewer bits than a full `2 ^ 53` there is nothing to shift out
    have hlog : k.log2 ≤ 52 := by
      rcases Nat.eq_zero_or_pos k with rfl | hpos
      · decide
      · exact Nat.lt_succ_iff.1 ((Nat.log2_lt hpos.ne').2 hlt)
    have hlow : j = 0 ∨ 52 ≤ k.log2 := hj.imp_right fun h => (Nat.le_log2 (by omega)).2 h
    have hs : (j - 1074 : ℤ) + (0 : ℕ) = lastPlace k (j - 1074) := by
      rw [lastPlace]
      omega
    refine ⟨k, j, ?_, rfl, hlt, hj⟩
    rw [shiftToTargetExponent_exact hs]
    exact ⟨Nat.div_one k, by omega⟩
  · -- the last bit of the full number is a zero, so that its shift is exact, too
    have hs : (j - 1074 : ℤ) + (1 : ℕ) = lastPlace (2 ^ 53) (j - 1074) := by
      rw [lastPlace, Nat.log2_two_pow]
      omega
    refine ⟨2 ^ 52, j + 1, ?_, by omega, by decide, Or.inr le_rfl⟩
    rw [shiftToTargetExponent_exact hs]
    exact ⟨rfl, by push_cast; ring⟩

/-- **The bits that come of rounding** are those of the rounded quotient in its place. -/
theorem toNat_pack_roundWithAccuracy (n : ℕ) (hd : 0 < d) {e : ℤ} {s j k : ℕ}
    (hs : e + s = lastPlace (n / d) e) (hplace : e + s = j - 1074)
    (hround : Binary64.roundQuotient n (d * 2 ^ s) = k) (hk : k ≤ 2 ^ 53)
    (hj : j = 0 ∨ 2 ^ 52 ≤ k) :
    (UnpackedFloat.pack .binary64 (roundWithAccuracy .binary64 .positive (n / d) e
      (accuracyOfFraction (n % d) d))).toNat = min (k + j * 2 ^ 52) Binary64.infinityBits := by
  obtain ⟨k', j', ⟨hmantissa, hexponent⟩, hbits, hk', hj'⟩ :=
    exists_shiftToTargetExponent hk hj
  -- rounding turns the quotient into a whole number, which is shifted once more and packed
  rw [roundWithAccuracy, shiftToTargetExponent_div n hd hs]
  dsimp only
  rw [roundedMantissa_ofQuotient n (Nat.mul_pos hd (Nat.two_pow_pos s)), hround, hplace]
  generalize shiftToTargetExponent .binary64 k (j - 1074) .exact = shifted at *
  obtain ⟨em, e'⟩ := shifted
  obtain rfl : em.mantissa = k' := hmantissa
  obtain rfl : e' = j' - 1074 := hexponent
  dsimp only
  split_ifs with hzero
  · -- zero has no leading bit, so it is in the lowest place
    rw [UnpackedFloat.pack]
    rw [hzero] at hbits hj'
    obtain rfl : j' = 0 := by omega
    rw [← hbits]
    rfl
  · rw [toNat_pack (Nat.pos_of_ne_zero hzero) hk' hj', hbits]

/-- In its last place, a quotient has its leading bit, and no more bits than there is room for. -/
theorem significand_bounds (n : ℕ) (hd : 0 < d) {e : ℤ} {s j : ℕ}
    (hs : e + s = lastPlace (n / d) e) (hplace : e + s = j - 1074) :
    (j = 0 ∨ (2 ^ 52 : ℚ) ≤ n / (d * 2 ^ s : ℕ)) ∧ (n / (d * 2 ^ s : ℕ) : ℚ) < 2 ^ 53 := by
  have hd' : (0 : ℚ) < (d * 2 ^ s : ℕ) := by exact_mod_cast Nat.mul_pos hd (Nat.two_pow_pos s)
  rw [lastPlace] at hs
  rw [le_div_iff₀ hd', div_lt_iff₀ hd']
  constructor
  · -- as many bits go out as the quotient has more than a double
    refine (Nat.eq_zero_or_pos j).imp_right fun hj => ?_
    have hlog : (n / d).log2 = 52 + s := by omega
    have hpos : n / d ≠ 0 := fun h => absurd (h ▸ hlog) (by rw [Nat.log2_zero]; omega)
    have hle := Nat.log2_self_le hpos
    rw [hlog, Nat.pow_add, Nat.le_div_iff_mul_le hd, Nat.mul_assoc, Nat.mul_comm _ d] at hle
    exact_mod_cast hle
  · have hlog : (n / d).log2 + 1 ≤ 53 + s := by omega
    have hlt := Nat.lt_log2_self.trans_le (Nat.pow_le_pow_right two_pos hlog)
    rw [Nat.div_lt_iff_lt_mul hd, Nat.pow_add, Nat.mul_assoc, Nat.mul_comm _ d] at hlt
    exact_mod_cast hlt

/-- **What has all its bits down to the last place is rounded correctly.** -/
theorem roundsTo_roundWithAccuracy (n : ℕ) (hd : 0 < d) {e : ℤ} (he : e ≤ lastPlace (n / d) e) :
    RoundsTo (n / d * 2 ^ e) (packed (roundWithAccuracy .binary64 .positive (n / d) e
      (accuracyOfFraction (n % d) d))) := by
  -- `s` places are shifted out, and place `j` is where the significand comes to stand
  obtain ⟨s, hs⟩ := Int.le.dest he
  obtain ⟨j, hj⟩ := Int.le.dest (le_max_right ((n / d).log2 + e - 52 : ℤ) (-1074))
  have hplace : e + s = j - 1074 := by
    rw [hs, lastPlace, ← hj]
    ring
  obtain ⟨hlow, hhigh⟩ := significand_bounds n hd hs hplace
  have hnearest := Binary64.isNearest_roundQuotient n (Nat.mul_pos hd (Nat.two_pow_pos s))
  obtain ⟨hleading, hk⟩ := Binary64.bounds_of_isNearest hnearest hlow hhigh
  refine ⟨_, ?_, packed_of_toNat (toNat_pack_roundWithAccuracy n hd hs hplace rfl hk hleading)⟩
  have hvalue : (n / d * 2 ^ e : ℚ) = n / (d * 2 ^ s : ℕ) * 2 ^ j * 2 ^ (-1074 : ℤ) := by
    obtain rfl : e = j + -1074 - s := by omega
    rw [zpow_sub₀ two_ne_zero, zpow_add₀ two_ne_zero, zpow_natCast, zpow_natCast]
    -- or else the power would be written out
    generalize (2 : ℚ) ^ (-1074 : ℤ) = unit
    push_cast
    field_simp
  rw [hvalue]
  exact ((Binary64.isNearest_units hnearest hlow hhigh).mul_right (by positivity)).min
    Binary64.strictMono_value _

theorem cast_shiftLeft (m s : ℕ) (e : ℤ) : ((m <<< s : ℕ) : ℚ) * 2 ^ e = m * 2 ^ (e + s) := by
  rw [Nat.shiftLeft_eq, zpow_add₀ two_ne_zero, zpow_natCast]
  push_cast
  ring

theorem log2_shiftLeft {m : ℕ} (hm : 0 < m) (s : ℕ) : (m <<< s).log2 = m.log2 + s := by
  rw [Nat.log2_eq_iff (Nat.shiftLeft_pos_iff.2 hm).ne', Nat.shiftLeft_eq, Nat.add_right_comm,
    Nat.pow_add, Nat.pow_add _ _ s]
  exact ⟨Nat.mul_le_mul_right _ (Nat.log2_self_le hm.ne'),
    Nat.mul_lt_mul_of_pos_right Nat.lt_log2_self (Nat.two_pow_pos s)⟩

/-- **A number is rounded correctly**, whatever its exponent. -/
theorem roundsTo_round {m : ℕ} (hm : 0 < m) (e : ℤ) :
    RoundsTo (m * 2 ^ e) (packed (UnpackedFloat.round .binary64 .positive m e)) := by
  rw [UnpackedFloat.round, targetExponent_eq, decreaseExponent]
  dsimp only
  -- zeros are put in behind a number that is too short
  generalize hs : (e - lastPlace m e).toNat = s
  have hlog := log2_shiftLeft hm s
  have he : e - s ≤ lastPlace (m <<< s / 1) (e - s) := by
    rw [lastPlace] at hs
    rw [Nat.div_one, lastPlace, hlog]
    omega
  -- the zeros are taken back by the exponent
  have h := roundsTo_roundWithAccuracy (m <<< s) Nat.one_pos he
  have hvalue : ((m <<< s : ℕ) / (1 : ℕ) * 2 ^ (e - s) : ℚ) = m * 2 ^ e := by
    rw [Nat.cast_one, div_one, cast_shiftLeft, sub_add_cancel]
  rw [hvalue, Nat.div_one, Nat.mod_one] at h
  exact h

/-- **Without what stands behind its point**, a number is as many as its multiples of one. -/
theorem roundToInt_positive (m : ℕ) (e : ℤ) :
    roundToInt .positive m e = ⌊(m * 2 ^ e : ℚ)⌋₊ := by
  -- the exponent is made up for by zeros behind the number, or by a divisor
  obtain ⟨s, hs⟩ : ∃ s : ℕ, s = (0 - (e - e.toNat)).toNat := ⟨_, rfl⟩
  have hshift : ExtendedMantissa.ofMantissaAndAccuracy (m <<< e.toNat) .exact >>> s
      = ofQuotient (m <<< e.toNat) (2 ^ s) := by
    rw [ofMantissaAndAccuracy_exact, shiftRight_ofQuotient _ _ Nat.one_pos, Nat.one_mul]
  have hvalue : (m * 2 ^ e : ℚ) = ((m <<< e.toNat : ℕ) : ℚ) / (2 ^ s : ℕ) := by
    have h := cast_shiftLeft m e.toNat (-s)
    rw [(by omega : -(s : ℤ) + e.toNat = e), zpow_neg, zpow_natCast] at h
    rw [← h, div_eq_mul_inv]
    push_cast
    rfl
  rw [roundToInt, decreaseExponent]
  dsimp only
  rw [sub_zero, shiftToExponent]
  dsimp only
  rw [← hs, hshift, hvalue, Nat.floor_div_eq_div]
  rfl

theorem roundsTo_zero : RoundsTo 0 (packed (.zero .positive)) :=
  ⟨0, Binary64.isNearest_zero le_rfl (by positivity) _, packed_of_toNat rfl⟩

theorem roundsTo_normalize (m : ℕ) (e : ℤ) :
    RoundsTo (m * 2 ^ e) (packed (UnpackedFloat.normalize .binary64 m e .positive)) := by
  rcases Nat.eq_zero_or_pos m with rfl | hm
  · rw [Nat.cast_zero, zero_mul]
    exact roundsTo_zero
  · rw [UnpackedFloat.normalize, compare_gt_iff_gt.2 (by omega : (0 : ℤ) < m)]
    exact roundsTo_round hm e

/-- What a quotient is rounded from has all its bits down to the last place. -/
theorem roundsTo_divCore {m m' : ℕ} (hm : 0 < m) (hm' : 0 < m') (e e' : ℤ) :
    RoundsTo (m * 2 ^ e / (m' * 2 ^ e'))
      (packed (roundWithAccuracy .binary64 .positive (divCore .binary64 m e m' e').1
        (divCore .binary64 m e m' e').2.1 (divCore .binary64 m e m' e').2.2)) := by
  have htarget : Format.binary64.targetExponent (totalExponent m e - totalExponent m' e')
      = max (m.log2 + e - (m'.log2 + e') - 53) (-1074) := by
    change max ((m.log2 : ℤ) + 1 + e - (m'.log2 + 1 + e') - 53) (-1074) = _
    congr 1
    omega
  rw [divCore, htarget]
  dsimp only
  generalize ht : min (e - e') (max (m.log2 + e - (m'.log2 + e') - 53) (-1074)) = t
  generalize hs : (e - e' - t).toNat = s
  have hlog := log2_shiftLeft hm s
  -- the quotient is not rounded in a place it has no bits for
  have hlast : t ≤ lastPlace (m <<< s / m') t := by
    rw [lastPlace]
    rcases le_or_gt t (-1074) with hlow | hlow
    · exact hlow.trans (le_max_right _ _)
    · -- the dividend was shifted until it has more bits than the divisor by those of a double
      have hbits : 52 + (m'.log2 + 1) ≤ (m <<< s).log2 := by omega
      have hle : 2 ^ 52 * m' ≤ m <<< s :=
        calc 2 ^ 52 * m' ≤ 2 ^ 52 * 2 ^ (m'.log2 + 1) :=
              Nat.mul_le_mul_left _ Nat.lt_log2_self.le
          _ = 2 ^ (52 + (m'.log2 + 1)) := (Nat.pow_add _ _ _).symm
          _ ≤ 2 ^ (m <<< s).log2 := Nat.pow_le_pow_right two_pos hbits
          _ ≤ m <<< s := Nat.log2_self_le (Nat.shiftLeft_pos_iff.2 hm).ne'
      have hquotient := (Nat.le_div_iff_mul_le hm').2 hle
      have hlog : 52 ≤ (m <<< s / m').log2 := (Nat.le_log2 (by omega)).2 hquotient
      omega
  have hvalue : (m * 2 ^ e / (m' * 2 ^ e') : ℚ) = (m <<< s : ℕ) / m' * 2 ^ t := by
    obtain rfl : e = t + s + e' := by omega
    rw [div_mul_eq_mul_div, cast_shiftLeft, zpow_add₀ two_ne_zero _ e']
    field_simp
  rw [hvalue]
  exact roundsTo_roundWithAccuracy _ hm' hlast

end Double

/-- **A whole number is converted to the nearest double.** -/
theorem roundsTo_toFloat (n : UInt64) : RoundsTo n.toNat n.toFloat := by
  have h := Double.roundsTo_normalize n.toNat 0
  rw [zpow_zero, mul_one] at h
  exact h

namespace Binary64

variable {a b : ℕ}

theorem value_zero : value 0 = 0 := by
  rw [value, units, if_pos (by decide), Nat.cast_zero, zero_mul]

theorem unpack_zero : (Float.ofBits (UInt64.ofNat 0)).toModel.unpack = .zero .positive := rfl

/-- **Bits other than zero are those of a positive double** with their value. -/
theorem exists_unpack_ofBits (hpos : 0 < a) (ha : a < infinityBits) :
    ∃ m e hm, (Float.ofBits (UInt64.ofNat a)).toModel.unpack = .finite .positive m e hm ∧
      value a = m * 2 ^ e := by
  obtain ⟨hsign, hvalue⟩ := value_ofBits ha
  have hlt : (0 : ℚ) < value a := by
    rw [← value_zero]
    exact strictMono_value hpos
  -- a finite number without a minus that is above zero is a positive one
  rw [signOf?] at hsign
  rw [← hvalue] at hlt ⊢
  cases hunpack : (Float.ofBits (UInt64.ofNat a)).toModel.unpack with
  | finite s m e hm =>
    rw [hunpack] at hsign
    obtain rfl := Option.some.inj hsign
    exact ⟨m, e, hm, rfl, rfl⟩
  | _ =>
    rw [hunpack] at hlt
    exact absurd hlt (lt_irrefl 0)

/-- **A quotient of doubles is rounded correctly.** -/
theorem roundsTo_div (ha : a < infinityBits) (hpos : 0 < b) (hb : b < infinityBits) :
    RoundsTo (value a / value b)
      (Float.ofBits (UInt64.ofNat a) / Float.ofBits (UInt64.ofNat b)) := by
  obtain ⟨m', e', hm', hunpack', hvalue'⟩ := exists_unpack_ofBits hpos hb
  have hdiv : Float.ofBits (UInt64.ofNat a) / Float.ofBits (UInt64.ofNat b) =
      Double.packed (UnpackedFloat.div .binary64 (Float.ofBits (UInt64.ofNat a)).toModel.unpack
        (Float.ofBits (UInt64.ofNat b)).toModel.unpack) := rfl
  rw [hdiv, hunpack', hvalue']
  -- a zero is divided without any rounding
  rcases Nat.eq_zero_or_pos a with rfl | hapos
  · rw [value_zero, zero_div, unpack_zero]
    exact Double.roundsTo_zero
  · obtain ⟨m, e, hm, hunpack, hvalue⟩ := exists_unpack_ofBits hapos ha
    rw [hunpack, hvalue]
    exact Double.roundsTo_divCore hm hm' e e'

/-- A double is rounded to itself. -/
theorem roundsTo_value (ha : a ≤ infinityBits) :
    RoundsTo (value a) (Float.ofBits (UInt64.ofNat a)) := by
  refine ⟨a, ⟨ha, fun m _ => ?_, fun m _ hne heq => absurd heq ?_⟩, rfl⟩
  · rw [sub_self, abs_zero]
    exact abs_nonneg _
  · rw [sub_self, abs_zero, abs_eq_zero, sub_eq_zero]
    exact fun h => hne (strictMono_value.injective h).symm

/-- Adding zero changes nothing. -/
theorem roundsTo_add_zero (ha : a < infinityBits) :
    RoundsTo (value a) (Double.packed (UnpackedFloat.add .binary64 (.zero .positive)
      (Float.ofBits (UInt64.ofNat a)).toModel.unpack)) ∧
    RoundsTo (value a) (Double.packed (UnpackedFloat.add .binary64
      (Float.ofBits (UInt64.ofNat a)).toModel.unpack (.zero .positive))) := by
  rcases Nat.eq_zero_or_pos a with rfl | hpos
  · rw [value_zero, unpack_zero]
    exact ⟨Double.roundsTo_zero, Double.roundsTo_zero⟩
  · obtain ⟨m, e, hm, hunpack, -⟩ := exists_unpack_ofBits hpos ha
    have hself := roundsTo_value ha.le
    rw [← Double.packed_unpack (Float.ofBits (UInt64.ofNat a)), hunpack] at hself
    rw [hunpack]
    exact ⟨hself, hself⟩

/-- **A sum of doubles is rounded correctly.** -/
theorem roundsTo_add (ha : a < infinityBits) (hb : b < infinityBits) :
    RoundsTo (value a + value b)
      (Float.ofBits (UInt64.ofNat a) + Float.ofBits (UInt64.ofNat b)) := by
  have hadd : Float.ofBits (UInt64.ofNat a) + Float.ofBits (UInt64.ofNat b) =
      Double.packed (UnpackedFloat.add .binary64 (Float.ofBits (UInt64.ofNat a)).toModel.unpack
        (Float.ofBits (UInt64.ofNat b)).toModel.unpack) := rfl
  rw [hadd]
  -- a sum with a zero is the other number as it is
  rcases Nat.eq_zero_or_pos a with rfl | hapos
  · rw [value_zero, zero_add, unpack_zero]
    exact (roundsTo_add_zero hb).1
  rcases Nat.eq_zero_or_pos b with rfl | hbpos
  · rw [value_zero, add_zero, unpack_zero]
    exact (roundsTo_add_zero ha).2
  obtain ⟨m, e, hm, hunpack, hvalue⟩ := exists_unpack_ofBits hapos ha
  obtain ⟨m', e', hm', hunpack', hvalue'⟩ := exists_unpack_ofBits hbpos hb
  rw [hunpack, hunpack', hvalue, hvalue']
  -- both are brought to the lower of the two exponents, where they are added as whole numbers
  obtain ⟨s, hs⟩ := Int.le.dest (min_le_left e e')
  obtain ⟨s', hs'⟩ := Int.le.dest (min_le_right e e')
  have hshift : (e - min e e').toNat = s ∧ (e' - min e e').toNat = s' := by omega
  have h := Double.roundsTo_normalize (m <<< s + m' <<< s') (min e e')
  rw [Nat.cast_add, add_mul, Double.cast_shiftLeft, Double.cast_shiftLeft, hs, hs'] at h
  rw [← hshift.1, ← hshift.2] at h
  exact h

/-- What is no larger than a number of few digits is finite. -/
theorem lt_infinityBits {m e : ℕ} (hm : m < 2 ^ 53) (h : value a ≤ m / 2 ^ e) :
    a < infinityBits := by
  -- the double of `2 ^ 53` is above the number, and still finite
  have hvalue : value (2 ^ 52 + 1075 * 2 ^ 52) = 2 ^ 53 := by
    rw [value_add (Or.inr le_rfl) (by decide)]
    norm_num
  have hm' : (m : ℚ) < 2 ^ 53 := by exact_mod_cast hm
  have hdiv : (m : ℚ) / 2 ^ e ≤ m := div_le_self m.cast_nonneg (one_le_pow₀ one_le_two)
  have hlt : a < 2 ^ 52 + 1075 * 2 ^ 52 := strictMono_value.lt_iff_lt.1 (by rw [hvalue]; linarith)
  exact hlt.trans (by decide)

/-- **A whole number that a double has room for** is converted without a loss. -/
theorem exists_toFloat_eq {n : UInt64} (h : n.toNat < 2 ^ 53) :
    ∃ bits < infinityBits, value bits = n.toNat ∧
      n.toFloat = Float.ofBits (UInt64.ofNat bits) := by
  obtain ⟨bits, hbits, hvalue⟩ := exists_value_eq h (Nat.zero_le _)
  have hfinite := lt_infinityBits h hvalue.le
  rw [pow_zero, div_one] at hvalue
  exact ⟨bits, hfinite, hvalue, (roundsTo_toFloat n).unique (hvalue ▸ roundsTo_value hbits)⟩

/-- **What a double is without what stands behind its point**, if a byte has room for it. -/
theorem toNat_toUInt8 (ha : a < infinityBits) (h : value a < 256) :
    (Float.ofBits (UInt64.ofNat a)).toUInt8.toNat = ⌊value a⌋₊ := by
  have hto : (Float.ofBits (UInt64.ofNat a)).toUInt8 = UInt8.ofNatClamp
      (UnpackedFloat.toInt 0 255 (Float.ofBits (UInt64.ofNat a)).toModel.unpack).toNat := rfl
  rw [hto]
  rcases Nat.eq_zero_or_pos a with rfl | hpos
  · rw [value_zero, unpack_zero, Nat.floor_zero]
    rfl
  · -- as a byte has room for the number, it is not cut off at 255
    obtain ⟨m, e, hm, hunpack, hvalue⟩ := exists_unpack_ofBits hpos ha
    have hlt : ⌊value a⌋₊ < 256 := (Nat.floor_lt (by rw [value]; positivity)).2 h
    rw [hvalue] at hlt ⊢
    rw [hunpack, UnpackedFloat.toInt, Double.roundToInt_positive, Int.toNat_natCast,
      UInt8.ofNatClamp, dif_pos hlt]
    rfl

end Binary64

end AssayRules
