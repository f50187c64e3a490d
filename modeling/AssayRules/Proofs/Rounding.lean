import AssayRules.Decimal
import Mathlib.Algebra.Order.Field.Basic
import Mathlib.Algebra.Order.Field.Power
import Mathlib.Algebra.Field.Rat
import Mathlib.Algebra.Order.Ring.Rat
import Mathlib.Tactic.FieldSimp
import Mathlib.Tactic.Linarith
import Mathlib.Tactic.Ring

/-!
# Correct rounding

A decimal is read as the double that is nearest to it, ties to the even one
(`Decimal.roundsTo_toFloat`). The bits of the doubles that are not negative are a scale for that:
the larger the bits, the larger the double (`Binary64.strictMono_value`), and the bits are even
where the significand is. On such a scale a number has only one nearest place, as a nearer one
would stand between two even ones (`IsNearest.unique`), so that `RoundsTo` leaves no choice.

Rounding a quotient to a whole number finds the nearest of all whole numbers
(`isNearest_roundQuotient`). That the nearest of all doubles is found in this way is due to the
place in which the significand stands: the doubles of that place and all above it are multiples of
the weight of its last bit, and those below are farther away than its first
(`Binary64.isNearest_units`). The doubles do end, but a number is not nearer to their end than to
the place it would have on a scale without one, unless that is behind the end (`IsNearest.min`).

Powers of ten that are too large or too small to be written out are covered by bounds alone
(`Decimal.infinity_le_value`, `Decimal.value_lt`).
-/

namespace AssayRules

/-- **The nearest on a scale**, ties to even: `k` is in the range, no other place in it is nearer
to `x`, and if another is as near, then `k` is even. -/
structure IsNearest (scale : ℕ → ℚ) (range : Set ℕ) (x : ℚ) (k : ℕ) : Prop where
  mem : k ∈ range
  le : ∀ m ∈ range, |x - scale k| ≤ |x - scale m|
  even : ∀ m ∈ range, m ≠ k → |x - scale m| = |x - scale k| → Even k

namespace Binary64

/-- The value of the bits of a double that is not negative, as a multiple of the least subnormal
`2 ^ (-1074)`. The bits of infinity count for the power of two behind the last finite double. -/
def units (bits : ℕ) : ℕ :=
  if bits < 2 ^ 52 then bits else (2 ^ 52 + bits % 2 ^ 52) * 2 ^ (bits / 2 ^ 52 - 1)

/-- **The value of the bits** of a double that is not negative. -/
def value (bits : ℕ) : ℚ := units bits * 2 ^ (-1074 : ℤ)

end Binary64

/-- **The double that a number is rounded to**: the nearest one, ties to even. What is nearer to
the power of two behind the last finite double is infinite. -/
def RoundsTo (x : ℚ) (v : Float) : Prop :=
  ∃ bits, IsNearest Binary64.value (Set.Iic Binary64.infinityBits) x bits ∧
    v = Float.ofBits (UInt64.ofNat bits)

/-! ### Whole numbers -/

namespace Binary64

/-- Of the multiples of `d`, the rounded quotient gives one that is as near as any, and if there
are two of them, it is even. -/
theorem natAbs_sub_roundQuotient (n : ℕ) {d : ℕ} (hd : 0 < d) (m : ℕ) :
    ((n : ℤ) - roundQuotient n d * d).natAbs ≤ ((n : ℤ) - m * d).natAbs ∧
      (m ≠ roundQuotient n d →
        ((n : ℤ) - m * d).natAbs = ((n : ℤ) - roundQuotient n d * d).natAbs →
        Even (roundQuotient n d)) := by
  have hlt := Nat.mod_lt n hd
  -- the quotient lies between its whole part and the next number, and how far along is the rest
  have hn : (n : ℤ) = (n / d : ℕ) * d + (n % d : ℕ) := by
    exact_mod_cast (Nat.div_add_mod' n d).symm
  rw [roundQuotient]
  generalize n / d = whole at *
  generalize n % d = rest at *
  -- how far a multiple is depends on how many steps it is from the one below
  have hm : (n : ℤ) - m * d = (whole - m) * d + rest := by
    rw [hn]
    ring
  have hsteps : ∀ a : ℤ, (a ≤ whole - m → a * d ≤ (whole - m) * d) ∧
      (whole - m ≤ a → (whole - m) * d ≤ a * d) := fun a =>
    ⟨fun h => Int.mul_le_mul_of_nonneg_right h (Int.natCast_nonneg d),
      fun h => Int.mul_le_mul_of_nonneg_right h (Int.natCast_nonneg d)⟩
  have h0 := hsteps 0
  have h1 := hsteps 1
  have h2 := hsteps (-1)
  have h3 := hsteps (-2)
  have hwhole : (n : ℤ) - whole * d = rest := by rw [hn]; ring
  have hnext : (n : ℤ) - (whole + 1 : ℕ) * d = rest - d := by rw [hn]; push_cast; ring
  rw [hm]
  generalize ((whole : ℤ) - m) * d = far at *
  split_ifs with hbelow habove
  · rw [hwhole]
    omega
  · rw [hnext]
    omega
  · -- in the middle between two
    have heven : Even (whole + whole % 2) := by
      rw [Nat.even_iff]
      omega
    refine ⟨?_, fun _ _ => heven⟩
    rcases Nat.mod_two_eq_zero_or_one whole with h | h <;> rw [h]
    · rw [Nat.add_zero, hwhole]
      omega
    · rw [hnext]
      omega

/-- **A quotient is rounded to the nearest whole number.** -/
theorem isNearest_roundQuotient (n : ℕ) {d : ℕ} (hd : 0 < d) :
    IsNearest Nat.cast Set.univ (n / d : ℚ) (roundQuotient n d) := by
  -- the distance of a quotient from a whole number, in units of one part of the divisor
  have hdist : ∀ k : ℕ, |(n / d : ℚ) - k| = (((n : ℤ) - k * d).natAbs : ℚ) / d := by
    intro k
    have hd' : (0 : ℚ) < d := by exact_mod_cast hd
    have hdiff : (n / d : ℚ) - k = ((n : ℤ) - k * d : ℤ) / d := by
      push_cast
      field_simp
    rw [hdiff, abs_div, abs_of_pos hd', Nat.cast_natAbs, Int.cast_abs]
  have hdpos : (0 : ℚ) < d := by exact_mod_cast hd
  refine ⟨Set.mem_univ _, fun m _ => ?_, fun m _ hne heq => ?_⟩
  · rw [hdist, hdist, div_le_div_iff_of_pos_right hdpos]
    exact_mod_cast (natAbs_sub_roundQuotient n hd m).1
  · rw [hdist, hdist, div_left_inj' hdpos.ne'] at heq
    exact (natAbs_sub_roundQuotient n hd m).2 hne (by exact_mod_cast heq)

/-! ### The scale of doubles -/

/-- A significand `k` in place `j`, which has its leading bit unless the place is the lowest. The
significand may have run over by one. -/
theorem units_add {k j : ℕ} (hj : j = 0 ∨ 2 ^ 52 ≤ k) (hk : k ≤ 2 ^ 53) :
    units (k + j * 2 ^ 52) = k * 2 ^ j := by
  -- without a leading bit there is only the lowest place
  rw [units]
  split_ifs with hsub
  · obtain rfl : j = 0 := by omega
    rw [Nat.zero_mul, Nat.add_zero, Nat.pow_zero, Nat.mul_one]
  · rcases Nat.lt_or_ge k (2 ^ 53) with hlt | hge
    · have hplace : (k + j * 2 ^ 52) / 2 ^ 52 - 1 = j := by omega
      have hfraction : 2 ^ 52 + (k + j * 2 ^ 52) % 2 ^ 52 = k := by omega
      rw [hplace, hfraction]
    · -- rounding up to the next power of two is the least number of the next place
      obtain rfl : k = 2 ^ 53 := Nat.le_antisymm hk hge
      have hplace : (2 ^ 53 + j * 2 ^ 52) / 2 ^ 52 - 1 = j + 1 := by omega
      have hfraction : 2 ^ 52 + (2 ^ 53 + j * 2 ^ 52) % 2 ^ 52 = 2 ^ 52 := by omega
      rw [hplace, hfraction, Nat.pow_succ]
      ring

/-- All bits are a significand in a place. -/
theorem exists_units_eq (bits : ℕ) : ∃ k j, bits = k + j * 2 ^ 52 ∧ k < 2 ^ 53 ∧
    (j = 0 ∨ 2 ^ 52 ≤ k) ∧ units bits = k * 2 ^ j := by
  -- below `2 ^ 52` bits are what they count, and above it the place is read off them
  rcases Nat.lt_or_ge bits (2 ^ 52) with hlt | hge
  · have hj : 0 = 0 ∨ 2 ^ 52 ≤ bits := Or.inl rfl
    refine ⟨bits, 0, by omega, by omega, hj, ?_⟩
    simpa using units_add hj (by omega)
  · obtain ⟨k, hk⟩ : ∃ k, k = 2 ^ 52 + bits % 2 ^ 52 := ⟨_, rfl⟩
    have hbits : bits = k + (bits / 2 ^ 52 - 1) * 2 ^ 52 := by omega
    have hj : bits / 2 ^ 52 - 1 = 0 ∨ 2 ^ 52 ≤ k := by omega
    refine ⟨k, bits / 2 ^ 52 - 1, hbits, by omega, hj, ?_⟩
    have h := units_add hj (by omega)
    rwa [← hbits] at h

/-- **Larger bits, larger doubles.** -/
theorem strictMono_units : StrictMono units := by
  refine strictMono_nat_of_lt_succ fun bits => ?_
  obtain ⟨k, j, rfl, hk, hj, hunits⟩ := exists_units_eq bits
  have hsucc : k + j * 2 ^ 52 + 1 = (k + 1) + j * 2 ^ 52 := by omega
  rw [hunits, hsucc, units_add (by omega) (by omega)]
  exact Nat.mul_lt_mul_of_pos_right (Nat.lt_succ_self k) (Nat.two_pow_pos j)

theorem value_add {k j : ℕ} (hj : j = 0 ∨ 2 ^ 52 ≤ k) (hk : k ≤ 2 ^ 53) :
    value (k + j * 2 ^ 52) = k * 2 ^ (j - 1074 : ℤ) := by
  rw [value, units_add hj hk, Nat.cast_mul, Nat.cast_pow, Nat.cast_ofNat, mul_assoc,
    ← zpow_natCast, ← zpow_add₀ two_ne_zero]
  rfl

theorem strictMono_value : StrictMono value := by
  intro a b hab
  have h : (units a : ℚ) < units b := by exact_mod_cast strictMono_units hab
  exact mul_lt_mul_of_pos_right h (by positivity)

/-- **What has few digits behind the point is a double**, if it has few digits at all. -/
theorem exists_value_eq {m e : ℕ} (hm : m < 2 ^ 53) (he : e ≤ 1022) :
    ∃ bits ∈ Set.Iic infinityBits, value bits = m / 2 ^ e := by
  rcases Nat.eq_zero_or_pos m with rfl | hpos
  · exact ⟨0, Nat.zero_le _, by simp [value, units]⟩
  · -- the leading bit is brought into its place
    have hlog : m.log2 < 53 := (Nat.log2_lt hpos.ne').2 hm
    obtain ⟨s, hs⟩ : ∃ s, m.log2 + s = 52 := ⟨52 - m.log2, by omega⟩
    have hlow : 2 ^ 52 ≤ m * 2 ^ s := by
      rw [← hs, pow_add]
      exact Nat.mul_le_mul_right _ (Nat.log2_self_le hpos.ne')
    have hhigh : m * 2 ^ s ≤ 2 ^ 53 := by
      rw [(by omega : 53 = m.log2 + 1 + s), pow_add]
      exact Nat.mul_le_mul_right _ Nat.lt_log2_self.le
    refine ⟨m * 2 ^ s + (1074 - e - s) * 2 ^ 52, ?_, ?_⟩
    · rw [Set.mem_Iic, infinityBits]
      omega
    · have hplace : (((1074 - e - s : ℕ) : ℤ) - 1074) = -(s : ℤ) - e := by omega
      rw [value_add (Or.inr hlow) hhigh, hplace, zpow_sub₀ two_ne_zero, zpow_neg, zpow_natCast,
        zpow_natCast]
      push_cast
      field_simp

/-- What is nearest to a significand is in its place as well, or just behind it. -/
theorem bounds_of_isNearest {t : ℚ} {k j : ℕ} (h : IsNearest Nat.cast Set.univ t k)
    (hlow : j = 0 ∨ 2 ^ 52 ≤ t) (hhigh : t < 2 ^ 53) : (j = 0 ∨ 2 ^ 52 ≤ k) ∧ k ≤ 2 ^ 53 := by
  constructor
  · -- a power of two at the bound is a candidate, so that rounding does not go below it
    refine hlow.imp_right fun hlow => ?_
    by_contra hlt
    have hk : (k : ℚ) < 2 ^ 52 := by exact_mod_cast Nat.lt_of_not_le hlt
    have hnear := h.le (2 ^ 52) (Set.mem_univ _)
    push_cast at hnear
    rw [abs_of_pos (by linarith), abs_of_nonneg (by linarith)] at hnear
    linarith
  · by_contra hgt
    have hk : (2 ^ 53 : ℚ) < k := by exact_mod_cast Nat.lt_of_not_le hgt
    have hnear := h.le (2 ^ 53) (Set.mem_univ _)
    push_cast at hnear
    rw [abs_of_neg (by linarith), abs_of_neg (by linarith)] at hnear
    linarith

/-- **Rounding the significand rounds the number**, if the significand is that of its place. -/
theorem isNearest_units {t : ℚ} {k j : ℕ} (h : IsNearest Nat.cast Set.univ t k)
    (hlow : j = 0 ∨ 2 ^ 52 ≤ t) (hhigh : t < 2 ^ 53) :
    IsNearest (fun bits => (units bits : ℚ)) Set.univ (t * 2 ^ j) (k + j * 2 ^ 52) := by
  obtain ⟨hk, hk'⟩ := bounds_of_isNearest h hlow hhigh
  have hpos : (0 : ℚ) < 2 ^ j := by positivity
  have hdist : ∀ c : ℚ, |t * 2 ^ j - c * 2 ^ j| = |t - c| * 2 ^ j := fun c => by
    rw [← sub_mul, abs_mul, abs_of_pos hpos]
  have hbits : |t * 2 ^ j - units (k + j * 2 ^ 52)| = |t - k| * 2 ^ j := by
    rw [units_add hk hk', ← hdist]
    push_cast
    rfl
  -- any other double is a multiple of the place, or below all numbers of the place
  have hother : ∀ m, m ≠ k + j * 2 ^ 52 →
      (∃ c : ℕ, c ≠ k ∧ |t * 2 ^ j - units m| = |t - c| * 2 ^ j) ∨
        |t - k| * 2 ^ j < |t * 2 ^ j - units m| := by
    intro m hne
    obtain ⟨k', j', rfl, hlt, hj', hunits⟩ := exists_units_eq m
    rcases Nat.lt_or_ge j' j with hj | hj
    · -- a double of a lower place is below the least number of this one, which is nearer
      right
      have hlow' : (2 ^ 52 : ℚ) ≤ t := hlow.resolve_left (by omega)
      have hnear := h.le (2 ^ 52) (Set.mem_univ _)
      push_cast at hnear
      rw [abs_of_nonneg (by linarith : 0 ≤ t - 4503599627370496)] at hnear
      have hm : ((k' * 2 ^ j' : ℕ) : ℚ) < 2 ^ 52 * 2 ^ j := by
        have hpow : 2 ^ (j' + 1) ≤ 2 ^ j := Nat.pow_le_pow_right (by decide) hj
        have hm : k' * 2 ^ j' < 2 ^ 52 * 2 ^ j := by
          have := Nat.mul_lt_mul_of_pos_right hlt (Nat.two_pow_pos j')
          rw [Nat.pow_succ] at hpow
          omega
        exact_mod_cast hm
      have hfar := mul_le_mul_of_nonneg_right hnear hpos.le
      have habs := le_abs_self (t * 2 ^ j - (k' * 2 ^ j' : ℕ))
      rw [hunits]
      linarith
    · left
      -- one of this place or a higher one is some number of its units
      obtain ⟨i, rfl⟩ := Nat.exists_eq_add_of_le hj
      have hmultiple : units (k' + (j + i) * 2 ^ 52) = k' * 2 ^ i * 2 ^ j := by
        rw [hunits, Nat.pow_add]
        ring
      refine ⟨k' * 2 ^ i, fun heq => hne (strictMono_units.injective ?_), ?_⟩
      · rw [hmultiple, heq, units_add hk hk']
      · rw [hmultiple, ← hdist]
        push_cast
        rfl
  -- being nearest and being even in a tie, by what the other double is
  refine ⟨Set.mem_univ _, fun m _ => ?_, fun m _ hne heq => ?_⟩
  · rcases eq_or_ne m (k + j * 2 ^ 52) with rfl | hne
    · exact le_rfl
    · rw [hbits]
      rcases hother m hne with ⟨c, -, hc⟩ | hlt
      · rw [hc]
        exact mul_le_mul_of_nonneg_right (h.le c (Set.mem_univ _)) hpos.le
      · exact hlt.le
  · rw [hbits] at heq
    rcases hother m hne with ⟨c, hck, hc⟩ | hlt
    · rw [hc] at heq
      have heven := h.even c (Set.mem_univ _) hck (mul_right_cancel₀ hpos.ne' heq)
      rw [Nat.even_iff] at heven ⊢
      omega
    · exact absurd heq hlt.ne'

end Binary64

/-! ### The range of doubles -/

namespace IsNearest

variable {scale : ℕ → ℚ} {range : Set ℕ} {x c : ℚ} {k top : ℕ}

/-- The scale may be magnified. -/
theorem mul_right (h : IsNearest scale range x k) (hc : 0 < c) :
    IsNearest (fun m => scale m * c) range (x * c) k := by
  have hdist : ∀ m, |x * c - scale m * c| = |x - scale m| * c := fun m => by
    rw [← sub_mul, abs_mul, abs_of_pos hc]
  refine ⟨h.mem, fun m hm => ?_, fun m hm hne heq => ?_⟩
  · rw [hdist, hdist]
    exact mul_le_mul_of_nonneg_right (h.le m hm) hc.le
  · rw [hdist, hdist] at heq
    exact h.even m hm hne (mul_right_cancel₀ hc.ne' heq)

/-- The last place of a range is the nearest to all that is behind it. -/
theorem of_scale_le (hscale : StrictMono scale) (h : scale top ≤ x) :
    IsNearest scale (Set.Iic top) x top := by
  have hdist : ∀ m ∈ Set.Iic top, |x - scale m| = x - scale m := fun m hm =>
    abs_of_nonneg (by linarith [hscale.monotone (Set.mem_Iic.1 hm)])
  refine ⟨Set.mem_Iic.2 le_rfl, fun m hm => ?_, fun m hm hne heq => ?_⟩
  · rw [hdist m hm, hdist top (Set.mem_Iic.2 le_rfl)]
    linarith [hscale.monotone (Set.mem_Iic.1 hm)]
  · rw [hdist m hm, hdist top (Set.mem_Iic.2 le_rfl)] at heq
    linarith [hscale (lt_of_le_of_ne (Set.mem_Iic.1 hm) hne)]

/-- **Rounding without a last place, and then up to it**, is rounding up to it. -/
theorem min (hscale : StrictMono scale) (h : IsNearest scale Set.univ x k) (top : ℕ) :
    IsNearest scale (Set.Iic top) x (min k top) := by
  rcases Nat.lt_or_ge top k with hlt | hle
  · rw [Nat.min_eq_right hlt.le]
    refine of_scale_le hscale ?_
    -- otherwise the last place would be nearer than one behind it
    by_contra hbelow
    have hnear := h.le top (Set.mem_univ top)
    have hk := hscale hlt
    rw [abs_of_neg (by linarith), abs_of_neg (by linarith)] at hnear
    linarith
  · rw [Nat.min_eq_left hle]
    exact ⟨hle, fun m _ => h.le m (Set.mem_univ m), fun m _ => h.even m (Set.mem_univ m)⟩

/-- Between two even places there is one that is nearer than both of them can be. -/
theorem not_lt (hscale : StrictMono scale) {k' : ℕ} (h : IsNearest scale (Set.Iic top) x k)
    (h' : IsNearest scale (Set.Iic top) x k') : ¬ k < k' := by
  intro hlt
  -- equally near and not the same, both would be even, with an odd one between them
  have heq := le_antisymm (h.le k' h'.mem) (h'.le k h.mem)
  have hk := h.even k' h'.mem hlt.ne' heq.symm
  have hk' := h'.even k h.mem hlt.ne heq
  have hbetween : k + 1 < k' := by
    rw [Nat.even_iff] at hk hk'
    omega
  have hfirst := hscale (Nat.lt_succ_self k)
  have hsecond := hscale hbetween
  have hnear := h.le (k + 1) (hbetween.le.trans h'.mem)
  -- `x` is in the middle of the two
  rcases abs_eq_abs.1 heq with hsame | hmiddle
  · linarith
  · rw [abs_of_pos (by linarith)] at hnear
    rcases abs_cases (x - scale (k + 1)) with ⟨habs, -⟩ | ⟨habs, -⟩ <;> linarith

/-- **There is only one nearest place.** -/
theorem unique (hscale : StrictMono scale) {k' : ℕ} (h : IsNearest scale (Set.Iic top) x k)
    (h' : IsNearest scale (Set.Iic top) x k') : k = k' :=
  Nat.le_antisymm (Nat.le_of_not_lt (h'.not_lt hscale h)) (Nat.le_of_not_lt (h.not_lt hscale h'))

/-- A number is not rounded past a place below it. -/
theorem scale_le (h : IsNearest scale range x k) {m : ℕ} (hm : m ∈ range) (hle : scale m ≤ x) :
    scale m ≤ scale k := by
  by_contra hlt
  have hnear := h.le m hm
  rw [abs_of_nonneg (by linarith), abs_of_nonneg (by linarith)] at hnear
  linarith

/-- A number is not rounded past a place above it. -/
theorem le_scale (h : IsNearest scale range x k) {m : ℕ} (hm : m ∈ range) (hle : x ≤ scale m) :
    scale k ≤ scale m := by
  by_contra hlt
  have hnear := h.le m hm
  rw [abs_of_nonpos (by linarith), abs_of_nonpos (by linarith)] at hnear
  linarith

end IsNearest

/-- A number is rounded to one double. -/
theorem RoundsTo.unique {x : ℚ} {v w : Float} (hv : RoundsTo x v) (hw : RoundsTo x w) :
    v = w := by
  obtain ⟨b, hb, rfl⟩ := hv
  obtain ⟨c, hc, rfl⟩ := hw
  rw [hb.unique Binary64.strictMono_value hc]

/-- A number is not rounded past one with few digits that is below it. -/
theorem Binary64.div_two_pow_le_value {x : ℚ} {k m e : ℕ}
    (h : IsNearest value (Set.Iic infinityBits) x k) (hm : m < 2 ^ 53) (he : e ≤ 1022)
    (hle : m / 2 ^ e ≤ x) : m / 2 ^ e ≤ value k := by
  obtain ⟨bits, hbits, hvalue⟩ := exists_value_eq hm he
  rw [← hvalue] at hle ⊢
  exact h.scale_le hbits hle

/-- A number is not rounded past one with few digits that is above it. -/
theorem Binary64.value_le_div_two_pow {x : ℚ} {k m e : ℕ}
    (h : IsNearest value (Set.Iic infinityBits) x k) (hm : m < 2 ^ 53) (he : e ≤ 1022)
    (hle : x ≤ m / 2 ^ e) : value k ≤ m / 2 ^ e := by
  obtain ⟨bits, hbits, hvalue⟩ := exists_value_eq hm he
  rw [← hvalue] at hle ⊢
  exact h.le_scale hbits hle

/-! ### Quotients -/

/-- A power of any exponent as a quotient of powers. -/
theorem zpow_eq_div_pow (b : ℚ) (z : ℤ) :
    b ^ z = b ^ z.toNat / b ^ (-z).toNat := by
  rcases Int.le_total 0 z with h | h
  · rw [Int.toNat_of_nonpos (Int.neg_nonpos_of_nonneg h), pow_zero, div_one, ← zpow_natCast,
      Int.toNat_of_nonneg h]
  · rw [Int.toNat_of_nonpos h, pow_zero, one_div, ← zpow_natCast,
      Int.toNat_of_nonneg (Int.neg_nonneg_of_nonpos h), zpow_neg, inv_inv]

namespace Binary64

/-- **The magnitude** of a quotient. -/
theorem magnitude_spec {n d : ℕ} (hn : 0 < n) (hd : 0 < d) :
    (2 : ℚ) ^ magnitude n d ≤ n / d ∧ (n / d : ℚ) < 2 ^ (magnitude n d + 1) := by
  have hd' : (0 : ℚ) < d := by exact_mod_cast hd
  -- the lengths alone leave two candidates
  have hlow : (2 : ℚ) ^ ((n.log2 : ℤ) - d.log2 - 1) ≤ n / d := by
    have hnlow : (2 : ℚ) ^ (n.log2 : ℤ) ≤ n := by exact_mod_cast Nat.log2_self_le hn.ne'
    have hdhigh : (d : ℚ) ≤ 2 ^ (d.log2 + 1 : ℤ) := by exact_mod_cast Nat.lt_log2_self.le
    rw [le_div_iff₀ hd']
    refine le_trans (mul_le_mul_of_nonneg_left hdhigh (by positivity)) ?_
    rw [← zpow_add₀ two_ne_zero, show (n.log2 : ℤ) - d.log2 - 1 + (d.log2 + 1) = n.log2 by ring]
    exact hnlow
  have hhigh : (n / d : ℚ) < 2 ^ ((n.log2 : ℤ) - d.log2 + 1) := by
    have hnhigh : (n : ℚ) < 2 ^ (n.log2 + 1 : ℤ) := by exact_mod_cast Nat.lt_log2_self
    have hdlow : (2 : ℚ) ^ (d.log2 : ℤ) ≤ d := by exact_mod_cast Nat.log2_self_le hd.ne'
    rw [div_lt_iff₀ hd']
    refine lt_of_lt_of_le hnhigh (le_trans ?_ (mul_le_mul_of_nonneg_left hdlow (by positivity)))
    rw [← zpow_add₀ two_ne_zero, show (n.log2 : ℤ) - d.log2 + 1 + d.log2 = n.log2 + 1 by ring]
  -- and the comparison decides between them
  have hcompare : ∀ e : ℤ, d * Nat.pow 2 e.toNat ≤ n * Nat.pow 2 (-e).toNat ↔
      (2 : ℚ) ^ e ≤ n / d := by
    intro e
    rw [zpow_eq_div_pow, div_le_div_iff₀ (by positivity) hd', mul_comm d]
    exact_mod_cast Iff.rfl
  rw [magnitude]
  split_ifs with h
  · exact ⟨(hcompare _).1 h, hhigh⟩
  · rw [hcompare, not_le] at h
    exact ⟨hlow, by simpa using h⟩

/-- What is less than half the least subnormal is rounded to zero. -/
theorem isNearest_zero {x : ℚ} (hx : 0 ≤ x) (h : x < 2 ^ (-1075 : ℤ)) (top : ℕ) :
    IsNearest value (Set.Iic top) x 0 := by
  have hvalue : value 0 = 0 := by simp [value, units]
  -- any other double is more than twice as large
  have hother : ∀ m, m ≠ 0 → |x - value 0| < |x - value m| := by
    intro m hm
    have hunits : (1 : ℚ) ≤ units m := by
      exact_mod_cast (Nat.pos_of_ne_zero hm).trans_le (strictMono_units.le_apply)
    have hleast : (2 : ℚ) ^ (-1074 : ℤ) ≤ value m :=
      le_mul_of_one_le_left (by positivity) hunits
    have hhalf : (2 : ℚ) ^ (-1074 : ℤ) = 2 * 2 ^ (-1075 : ℤ) := by
      rw [← zpow_one_add₀ two_ne_zero]
      rfl
    rw [hvalue, sub_zero, abs_of_nonneg hx, abs_of_neg (by linarith)]
    linarith
  refine ⟨Nat.zero_le top, fun m _ => ?_, fun m _ hne heq => absurd heq (hother m hne).ne'⟩
  rcases eq_or_ne m 0 with rfl | hne
  · exact le_rfl
  · exact (hother m hne).le

/-- **The bits of a quotient are nearest to it.** -/
theorem isNearest_nearestBits (n : ℕ) {d : ℕ} (hd : 0 < d) :
    IsNearest value (Set.Iic infinityBits) (n / d) (nearestBits n d) := by
  rw [nearestBits]
  split_ifs with hn
  · -- a zero is taken out before anything is divided
    rw [hn, Nat.cast_zero, zero_div]
    exact isNearest_zero le_rfl (by positivity) _
  obtain ⟨hlow, hhigh⟩ := magnitude_spec (Nat.pos_of_ne_zero hn) hd
  obtain ⟨q, hq⟩ : ∃ q, q = lastBit n d := ⟨_, rfl⟩
  obtain ⟨j, hj⟩ : ∃ j, j = (q + 1074).toNat := ⟨_, rfl⟩
  simp only [Nat.pow_eq, ← hq, ← hj]
  rw [lastBit] at hq
  -- the significand, and the bounds of its place
  obtain ⟨t, ht⟩ : ∃ t : ℚ, t = n / d * 2 ^ (-q) := ⟨_, rfl⟩
  have hquotient : ((n * 2 ^ (-q).toNat : ℕ) : ℚ) / (d * 2 ^ q.toNat : ℕ) = t := by
    rw [ht, zpow_eq_div_pow, neg_neg, div_mul_div_comm]
    push_cast
    rfl
  have hscaled : ∀ e : ℤ, (2 : ℚ) ^ e * 2 ^ (-q) = 2 ^ (e - q) := fun e => by
    rw [← zpow_add₀ two_ne_zero, sub_eq_add_neg]
  have hpos : (0 : ℚ) < 2 ^ (-q) := by positivity
  -- the significand has a leading bit, or is in the lowest place
  have hplace : j = 0 ∨ (2 : ℚ) ^ 52 ≤ t := by
    rcases Nat.eq_zero_or_pos j with h | h
    · exact Or.inl h
    · right
      have hmagnitude : magnitude n d - q = (52 : ℕ) := by omega
      have := mul_le_mul_of_nonneg_right hlow hpos.le
      rwa [hscaled, hmagnitude, zpow_natCast, ← ht] at this
  have hover : t < 2 ^ 53 := by
    have hmagnitude : magnitude n d + 1 - q ≤ (53 : ℕ) := by omega
    have := mul_lt_mul_of_pos_right hhigh hpos
    rw [hscaled, ← ht] at this
    refine this.trans_le ?_
    rw [← zpow_natCast]
    exact zpow_le_zpow_right₀ one_le_two hmagnitude
  have hround := isNearest_roundQuotient (n * 2 ^ (-q).toNat)
    (Nat.mul_pos hd (Nat.two_pow_pos q.toNat))
  rw [hquotient] at hround
  have hnearest := ((isNearest_units hround hplace hover).mul_right
    (c := 2 ^ (-1074 : ℤ)) (by positivity)).min strictMono_value infinityBits
  have hx : t * 2 ^ j * 2 ^ (-1074 : ℤ) = (n / d : ℚ) := by
    rw [ht, mul_assoc, mul_assoc, ← zpow_natCast, ← zpow_add₀ two_ne_zero,
      ← zpow_add₀ two_ne_zero, show -q + (j + -1074) = (0 : ℤ) by omega, zpow_zero, mul_one]
  rwa [hx] at hnearest

end Binary64

/-! ### Decimals -/

namespace Decimal

/-- The value of a decimal. -/
def value (d : Decimal) : ℚ := d.coefficient * 10 ^ d.exponent

/-- A power of ten that is not written out for being large is behind all finite doubles. -/
theorem infinity_le_value {d : Decimal} (hzero : d.coefficient ≠ 0) (h : 310 < d.exponent) :
    Binary64.value Binary64.infinityBits ≤ d.value := by
  have hinfinity := Binary64.value_add (k := 2 ^ 52) (j := 2046) (Or.inr le_rfl) (by decide)
  have hcoefficient : (1 : ℚ) ≤ d.coefficient := by
    exact_mod_cast Nat.one_le_iff_ne_zero.2 hzero
  have hpower : ((2 ^ 52 * 2 ^ 972 : ℕ) : ℚ) ≤ (10 ^ 310 : ℕ) := Nat.cast_le.2 (by decide +kernel)
  calc Binary64.value Binary64.infinityBits = (2 ^ 52 : ℕ) * 2 ^ ((972 : ℕ) : ℤ) := hinfinity
    _ = (2 ^ 52 * 2 ^ 972 : ℕ) := by
      rw [zpow_natCast, Nat.cast_mul, Nat.cast_pow 2 972, Nat.cast_ofNat]
    _ ≤ (10 ^ 310 : ℕ) := hpower
    _ = 10 ^ (310 : ℤ) := by rw [Nat.cast_pow, Nat.cast_ofNat]; rfl
    _ ≤ 10 ^ d.exponent := zpow_le_zpow_right₀ (by norm_num) h.le
    _ ≤ d.value := le_mul_of_one_le_left (by positivity) hcoefficient

/-- A decimal that is not written out for being small is less than half the least subnormal. -/
theorem value_lt {d : Decimal}
    (h : (d.coefficient.log2 : ℤ) + 1 + 3 * min d.exponent 0 ≤ -1075) :
    d.value < 2 ^ (-1075 : ℤ) := by
  have hneg : d.exponent < 0 := by omega
  obtain ⟨m, hm⟩ := Int.eq_ofNat_of_zero_le (Int.neg_nonneg_of_nonpos hneg.le)
  have hexponent : d.exponent = -m := by omega
  -- a tenth is less than an eighth
  have hpower : (10 : ℚ) ^ d.exponent ≤ 2 ^ (3 * d.exponent) := by
    rw [hexponent, zpow_mul, zpow_neg, zpow_neg, zpow_natCast, zpow_natCast]
    exact inv_anti₀ (by positivity) (pow_le_pow_left₀ (by norm_num) (by norm_num) m)
  have hcoefficient : (d.coefficient : ℚ) < 2 ^ (d.coefficient.log2 + 1 : ℤ) := by
    exact_mod_cast Nat.lt_log2_self
  calc d.value ≤ d.coefficient * 2 ^ (3 * d.exponent) :=
        mul_le_mul_of_nonneg_left hpower (Nat.cast_nonneg _)
    _ < 2 ^ (d.coefficient.log2 + 1 : ℤ) * 2 ^ (3 * d.exponent) :=
        mul_lt_mul_of_pos_right hcoefficient (by positivity)
    _ = 2 ^ (d.coefficient.log2 + 1 + 3 * d.exponent : ℤ) := (zpow_add₀ two_ne_zero _ _).symm
    _ ≤ 2 ^ (-1075 : ℤ) := zpow_le_zpow_right₀ one_le_two (by omega)

/-- **The bits of a decimal are nearest to it**, also where it is not written out. -/
theorem isNearest_bits (d : Decimal) :
    IsNearest Binary64.value (Set.Iic Binary64.infinityBits) d.value d.bits := by
  rw [bits]
  split_ifs with hzero hlarge hsmall
  · have hvalue : d.value = 0 := by rw [value, hzero, Nat.cast_zero, zero_mul]
    rw [hvalue]
    exact Binary64.isNearest_zero le_rfl (by positivity) _
  · exact IsNearest.of_scale_le Binary64.strictMono_value (infinity_le_value hzero hlarge)
  · exact Binary64.isNearest_zero (by rw [value]; positivity) (value_lt hsmall) _
  · have hvalue : d.value = (d.coefficient * 10 ^ d.exponent.toNat : ℕ)
        / (10 ^ (-d.exponent).toNat : ℕ) := by
      rw [value, zpow_eq_div_pow, mul_div_assoc']
      push_cast
      rfl
    rw [hvalue]
    exact Binary64.isNearest_nearestBits _ (Nat.pow_pos (by decide))

/-- **A decimal is rounded correctly.** -/
theorem roundsTo_toFloat (d : Decimal) : RoundsTo d.value d.toFloat :=
  ⟨d.bits, d.isNearest_bits, rfl⟩

end Decimal

end AssayRules
