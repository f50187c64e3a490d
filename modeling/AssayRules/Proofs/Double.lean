import Mathlib
import AssayRules.Proofs.Rounding

/-!
# Doubles that are numbers

Sums and products of doubles can come to something that is no number, where infinities meet. What
is added up from digits does not, as nothing in it has a minus and no digit is infinite.

What carries this is the **sign** (`Double.sign?`). Just the doubles that are numbers have one,
zero and the infinities among them, and packing a result into bits keeps it
(`Double.sign?_unpack_pack`). The sum of two doubles without a minus is one again, and so is the
product of one with a finite double.

Rounding is told by the bits of doubles without a minus. The value that the bits have there is the
value of the double that they write (`Binary64.value_ofBits`), and so what a number is rounded to is
a number.
-/

namespace AssayRules

open Float.Model Float.Model.UnpackedFloat

namespace Double

/-- **The sign of a double that is a number**, zero and the infinities among them. -/
def sign? : UnpackedFloat → Option Sign
  | .notANumber => none
  | .infinity sign => some sign
  | .zero sign => some sign
  | .finite sign _ _ _ => some sign

/-- The value of a double that is finite. -/
def value : UnpackedFloat → ℚ
  | .finite sign mantissa exponent _ => sign.apply mantissa * 2 ^ exponent
  | _ => 0

theorem isNaN_eq (f : UnpackedFloat) : f.isNaN = (sign? f).isNone := by
  cases f <;> rfl

/-! ### Packing -/

/-- Bits write a number unless they write a NaN, and the first of them is the sign. -/
theorem sign?_unpack {spec : Format} {b : BitVec spec.numBits}
    (h : unpackExponent b = -1#_ → unpackMantissa b = 0#_) :
    sign? (UnpackedFloat.unpack spec b) = some (Sign.ofBitVec (unpackSign b)) := by
  rw [UnpackedFloat.unpack]
  split_ifs with hexponent hmantissa hzero hmantissa
  · rfl
  · exact absurd (h hexponent) hmantissa
  · rfl
  · rfl
  · rfl

theorem sign?_unpack_packComponents {spec : Format} {sign exponent mantissa}
    (h : exponent = -1#_ → mantissa = 0#_) :
    sign? (UnpackedFloat.unpack spec (packComponents spec sign exponent mantissa)) = some sign := by
  rw [sign?_unpack (by simpa using h), unpackSign_packComponents, Sign.ofBitVec_toBitVec]

/-- **Packing keeps the sign**, and it turns no number into a NaN. -/
theorem sign?_unpack_pack (f : UnpackedFloat) :
    sign? (UnpackedFloat.unpack .binary64 (UnpackedFloat.pack .binary64 f)) = sign? f := by
  -- by the kinds of numbers there are, the last ones being those with and without a leading one
  fun_cases UnpackedFloat.pack with
  | case1 => rfl
  | case2 s => exact sign?_unpack_packComponents fun _ => rfl
  | case3 s => exact sign?_unpack_packComponents fun _ => rfl
  | case4 s m e hm place hplace => exact sign?_unpack_packComponents fun _ => rfl
  | case5 s m e hm length place hplace hnormal =>
    refine sign?_unpack_packComponents fun hexponent => ?_
    -- the exponent of all ones is left to the infinities
    have hones := congrArg BitVec.toNat hexponent
    have hlt : place < 2 ^ Format.binary64.exponentBits := by omega
    rw [BitVec.toNat_ofNat, Nat.mod_eq_of_lt hlt, BitVec.neg_one_eq_allOnes,
      BitVec.toNat_allOnes] at hones
    omega
  | case6 s m e hm length place hplace hnormal =>
    exact sign?_unpack_packComponents fun hexponent => absurd hexponent (by decide)

/-! ### Arithmetic -/

theorem sign?_roundWithAccuracy (spec : Format) (sign : Sign) (mantissa : ℕ) (exponent : ℤ)
    (accuracy : Accuracy) :
    sign? (roundWithAccuracy spec sign mantissa exponent accuracy) = some sign := by
  unfold roundWithAccuracy
  dsimp only
  split_ifs <;> rfl

theorem sign?_mul {spec : Format} {f : UnpackedFloat} {sign sign' : Sign} {mantissa : ℕ}
    {exponent : ℤ} {hpos : 0 < mantissa} (hf : sign? f = some sign) :
    sign? (UnpackedFloat.mul spec f (.finite sign' mantissa exponent hpos))
      = some (sign * sign') := by
  -- a zero and an infinity keep their kind, and a product of finite numbers is rounded
  cases f with
  | notANumber => cases hf
  | infinity s | zero s =>
    obtain rfl := Option.some.inj hf
    rfl
  | finite s m e hm =>
    obtain rfl := Option.some.inj hf
    exact sign?_roundWithAccuracy ..

theorem sign?_normalize (spec : Format) {mantissa : ℤ} (exponent : ℤ) (h : 0 ≤ mantissa) :
    sign? (UnpackedFloat.normalize spec mantissa exponent .positive) = some .positive := by
  rw [UnpackedFloat.normalize]
  split
  · rename_i hlt
    have := compare_lt_iff_lt.1 hlt
    omega
  · rfl
  · exact sign?_roundWithAccuracy ..

theorem sign?_add {spec : Format} {f g : UnpackedFloat} (hf : sign? f = some .positive)
    (hg : sign? g = some .positive) :
    sign? (UnpackedFloat.add spec f g) = some .positive := by
  -- by the kinds of both, where only two finite numbers are really added
  cases f with
  | notANumber => cases hf
  | infinity s | zero s =>
    obtain rfl := Option.some.inj hf
    cases g with
    | notANumber => cases hg
    | infinity t | zero t | finite t =>
      obtain rfl := Option.some.inj hg
      rfl
  | finite s m e hm =>
    obtain rfl := Option.some.inj hf
    cases g with
    | notANumber => cases hg
    | infinity t | zero t =>
      obtain rfl := Option.some.inj hg
      rfl
    | finite t n d hn =>
      obtain rfl := Option.some.inj hg
      -- neither has a negative sign, so that their sum has none
      refine sign?_normalize spec _ ?_
      exact Int.add_nonneg (Int.natCast_nonneg _) (Int.natCast_nonneg _)

end Double

/-! ### Doubles -/

/-- **The sign of a double** that is a number. -/
def signOf? (x : Float) : Option Sign := Double.sign? x.toModel.unpack

variable {x y : Float}

theorem isNaN_of_signOf? {sign : Sign} (h : signOf? x = some sign) : x.isNaN = false := by
  change x.toModel.unpack.isNaN = false
  rw [Double.isNaN_eq, Option.isNone_eq_false_iff]
  exact Option.isSome_of_eq_some h

theorem signOf?_neg (x : Float) : signOf? (-x) = (signOf? x).map (- ·) := by
  refine (Double.sign?_unpack_pack _).trans ?_
  rw [signOf?]
  cases x.toModel.unpack <;> rfl

theorem signOf?_add (hx : signOf? x = some .positive) (hy : signOf? y = some .positive) :
    signOf? (x + y) = some .positive :=
  (Double.sign?_unpack_pack _).trans (Double.sign?_add hx hy)

theorem signOf?_mul {sign sign' : Sign} {mantissa : ℕ} {exponent : ℤ} {hpos : 0 < mantissa}
    (hx : signOf? x = some sign)
    (hy : y.toModel.unpack = UnpackedFloat.finite sign' mantissa exponent hpos) :
    signOf? (x * y) = some (sign * sign') := by
  refine (Double.sign?_unpack_pack _).trans ?_
  rw [hy]
  exact Double.sign?_mul hx

/-- A whole number that a double has room for is one without a minus. -/
theorem signOf?_ofNat {n : ℕ} (h : n < 2 ^ 53) : signOf? (Float.ofNat n) = some .positive := by
  have hfast : Float.ofNat n = n.toUInt64.toFloat * Float.ofBits 0x3FF0000000000000 := by
    change Float.ofScientific n false 0 = _
    rw [Float.ofScientific, dif_pos ⟨h, by decide⟩]
    rfl
  have hone : (Float.ofBits 0x3FF0000000000000).toModel.unpack
      = UnpackedFloat.finite .positive (2 ^ 52) (-52) (by decide) := rfl
  have hn : signOf? n.toUInt64.toFloat = some .positive :=
    (Double.sign?_unpack_pack _).trans (Double.sign?_normalize _ _ (Int.natCast_nonneg _))
  rw [hfast]
  exact signOf?_mul hn hone

/-! ### The value of the bits -/

namespace Binary64

variable {bits : ℕ}

/-- The fields of the bits. -/
theorem unpack_fields (h : bits ≤ infinityBits) :
    @unpackSign .binary64 (UInt64.ofNat bits).toBitVec = 0#1 ∧
      (@unpackExponent .binary64 (UInt64.ofNat bits).toBitVec).toNat = bits / 2 ^ 52 ∧
      (@unpackMantissa .binary64 (UInt64.ofNat bits).toBitVec).toNat = bits % 2 ^ 52 := by
  rw [infinityBits] at h
  have hbits : (UInt64.ofNat bits).toBitVec.toNat = bits :=
    UInt64.toNat_ofNat_of_lt (Nat.lt_of_le_of_lt h (by decide))
  -- each field is a range of bits, and so a quotient and a remainder of the whole number
  refine ⟨?_, ?_, ?_⟩
  · rw [unpackSign_def, ← BitVec.toNat_inj, BitVec.extractLsb'_toNat, hbits,
      Nat.shiftRight_eq_div_pow]
    change bits / 2 ^ 63 % 2 ^ 1 = 0
    omega
  · rw [unpackExponent_def, BitVec.extractLsb'_toNat, hbits, Nat.shiftRight_eq_div_pow]
    change bits / 2 ^ 52 % 2 ^ 11 = _
    omega
  · rw [unpackMantissa_def, BitVec.extractLsb'_toNat, hbits, Nat.shiftRight_zero]

/-- These bits write no NaN, and so they are not changed into those of the one that there is. -/
theorem unpack_ofBits (h : bits ≤ infinityBits) :
    (Float.ofBits (UInt64.ofNat bits)).toModel.unpack =
      UnpackedFloat.unpack .binary64 (UInt64.ofNat bits).toBitVec := by
  obtain ⟨-, hexponent, hmantissa⟩ := unpack_fields h
  -- the exponent of all ones comes with an empty fraction only, up to here
  have hnumber : ¬ @isNaNBits .binary64 (UInt64.ofNat bits).toBitVec = true := by
    rw [isNaNBits, decide_eq_true_iff, ne_eq, ← BitVec.toNat_inj, ← BitVec.toNat_inj, hexponent,
      hmantissa]
    rw [infinityBits] at h
    change ¬ (bits / 2 ^ 52 = 2 ^ 11 - 1 ∧ ¬ bits % 2 ^ 52 = 0)
    omega
  have hpack := @pack_unpack .binary64 (UInt64.ofNat bits).toBitVec (by decide)
  rw [if_neg hnumber] at hpack
  exact congrArg (UnpackedFloat.unpack .binary64) hpack

/-- **Bits below those of infinity** are a number without a minus, and they have its value. -/
theorem value_ofBits (h : bits < infinityBits) :
    signOf? (Float.ofBits (UInt64.ofNat bits)) = some .positive ∧
      Double.value (Float.ofBits (UInt64.ofNat bits)).toModel.unpack = value bits := by
  obtain ⟨hsign, hexponent, hmantissa⟩ := unpack_fields h.le
  rw [signOf?, unpack_ofBits h.le]
  -- below the infinity the exponent has a zero in it, and it is all zeros below `2 ^ 52`
  have hones : ¬ @unpackExponent .binary64 (UInt64.ofNat bits).toBitVec = -1#_ := by
    rw [infinityBits] at h
    rw [← BitVec.toNat_inj, hexponent]
    change ¬ bits / 2 ^ 52 = 2 ^ 11 - 1
    omega
  have hlow : @unpackExponent .binary64 (UInt64.ofNat bits).toBitVec = 0#_ ↔ bits < 2 ^ 52 := by
    rw [← BitVec.toNat_inj, hexponent]
    exact Nat.div_eq_zero_iff_lt (Nat.two_pow_pos 52)
  rw [UnpackedFloat.unpack, if_neg hones, hsign]
  split_ifs with hexp hzero
  · rw [← BitVec.toNat_inj, hmantissa] at hzero
    have hbits : bits = 0 := (Nat.mod_eq_of_lt (hlow.1 hexp)).symm.trans hzero
    refine ⟨rfl, ?_⟩
    simp [Double.value, value, units, hbits]
  · -- without a leading bit
    have hlt := hlow.1 hexp
    refine ⟨rfl, ?_⟩
    rw [Double.value, hmantissa, hexponent, value, units, if_pos hlt, Nat.mod_eq_of_lt hlt,
      Nat.div_eq_of_lt hlt]
    rfl
  · -- with a leading bit, whose place is told by the exponent
    have hge := hlow.not.1 hexp
    have happend : (1#1 ++ @unpackMantissa .binary64 (UInt64.ofNat bits).toBitVec).toNat
        = 2 ^ 52 + bits % 2 ^ 52 := by
      rw [BitVec.toNat_append, hmantissa,
        ← Nat.shiftLeft_add_eq_or_of_lt (Nat.mod_lt _ (by decide)), Nat.shiftLeft_eq]
      rfl
    have hplace : (((bits / 2 ^ 52 : ℕ) : ℤ) - (1023 + 52)) = (bits / 2 ^ 52 - 1 : ℕ) + -1074 := by
      omega
    have hscale : (2 : ℚ) ^ (((bits / 2 ^ 52 : ℕ) : ℤ) - (1023 + 52))
        = (2 ^ (bits / 2 ^ 52 - 1) : ℕ) * 2 ^ (-1074 : ℤ) := by
      rw [hplace, zpow_add₀ two_ne_zero, zpow_natCast, Nat.cast_pow, Nat.cast_ofNat]
    refine ⟨rfl, ?_⟩
    rw [Double.value, happend, hexponent, value, units, if_neg hge, Nat.cast_mul, mul_assoc,
      ← hscale]
    rfl

end Binary64

/-- **Bits up to those of infinity** are a number without a minus. -/
theorem signOf?_ofBits {bits : ℕ} (h : bits ≤ Binary64.infinityBits) :
    signOf? (Float.ofBits (UInt64.ofNat bits)) = some .positive := by
  rcases h.lt_or_eq with hlt | rfl
  · exact (Binary64.value_ofBits hlt).1
  · rfl

/-- **Rounding comes to a number**, without a minus. -/
theorem RoundsTo.signOf? {r : ℚ} (h : RoundsTo r x) : signOf? x = some .positive := by
  obtain ⟨bits, hnearest, rfl⟩ := h
  exact signOf?_ofBits hnearest.mem

end AssayRules
