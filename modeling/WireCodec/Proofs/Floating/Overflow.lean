import WireCodec.Proofs.Floating.Singles

/-! # Overflow

A fraction is rounded to infinity if it is half a unit of the last place above
the greatest finite number, or more. So it is with decimals that are read as
doubles, and with doubles that are narrowed to singles.
-/

namespace WireCodec

open FloatFormat (double single)

/-- A quotient is rounded to an even number or a greater one if it is at most one
half below. -/
theorem le_roundQuotient_iff {num den n : Nat} (hden : 0 < den) (heven : n % 2 = 0) :
    n ≤ roundQuotient num den ↔ 2 * (den * n) ≤ 2 * num + den := by
  constructor
  · intro h
    have hmul := Nat.mul_le_mul_left den h
    have hbound := (roundQuotient_bounds hden num).1
    omega
  · intro hlow
    rcases Nat.lt_or_ge (2 * (den * n) + den) (2 * num) with hgreater | hhigh
    · have hmono := roundQuotient_mono (by omega : den * n ≤ num) den
      rwa [roundQuotient_mul hden] at hmono
    · exact (roundQuotient_eq hden hlow hhigh (.inl heven)).ge

namespace FloatFormat

variable {format : FloatFormat} {num den exponent : Nat}

/-- The least multiple of the least magnitude that is rounded to infinity. -/
def overflow (format : FloatFormat) : Nat :=
  (2 ^ (format.fractionBits + 2) - 1) * 2 ^ (format.topExponent - 3)

theorem mul_overflow {rest : Nat} (h : format.topExponent = rest + 3) (den : Nat) :
    den * format.overflow + den * 2 ^ rest = 4 * (den * 2 ^ rest * 2 ^ format.fractionBits) := by
  have hpow : 2 ^ (format.fractionBits + 2) - 1 + 1 = 2 ^ (format.fractionBits + 2) :=
    Nat.sub_add_cancel (Nat.two_pow_pos _)
  calc den * format.overflow + den * 2 ^ rest
      = den * 2 ^ rest * (2 ^ (format.fractionBits + 2) - 1 + 1) := by
        rw [overflow, h, Nat.add_sub_cancel]
        ring
    _ = 4 * (den * 2 ^ rest * 2 ^ format.fractionBits) := by
        rw [hpow]
        ring

theorem RoundsAt.round_eq_infinity_iff (hden : 0 < den) (h : format.RoundsAt num den exponent)
    (htop : 3 ≤ format.topExponent) :
    format.round num den = format.infinity ↔
      den * format.overflow ≤ num * 2 ^ format.lowestExponent := by
  obtain ⟨rest, hrest⟩ : ∃ rest, format.topExponent = rest + 3 :=
    ⟨_, (Nat.sub_add_cancel htop).symm⟩
  have hinfinity : format.infinity =
      rest * 2 ^ format.fractionBits + 3 * 2 ^ format.fractionBits := by
    rw [infinity, hrest, ← Nat.add_mul]
    rfl
  have hoverflow := mul_overflow hrest den
  have hone := Nat.two_pow_pos format.fractionBits
  rw [h.round_eq hden, min_eq_left_iff, hinfinity]
  -- the exponent of the greatest finite magnitudes is the one after the rest
  rcases Nat.lt_trichotomy exponent (rest + 1) with hbelow | rfl | habove
  · have hcarry := h.significand_le hden
    have hexponents : exponent * 2 ^ format.fractionBits ≤ rest * 2 ^ format.fractionBits :=
      Nat.mul_le_mul_right _ (Nat.le_of_lt_succ hbelow)
    have hhigh : num * 2 ^ format.lowestExponent < 2 * (den * 2 ^ rest * 2 ^ format.fractionBits) :=
      calc num * 2 ^ format.lowestExponent
          < den * 2 ^ (format.fractionBits + exponent + 1) := h.high
        _ ≤ den * 2 ^ (format.fractionBits + rest + 1) :=
          Nat.mul_le_mul_left _ (Nat.pow_le_pow_right Nat.two_pos (by omega))
        _ = 2 * (den * 2 ^ rest * 2 ^ format.fractionBits) := by ring
    have hunit : den * 2 ^ rest ≤ den * 2 ^ rest * 2 ^ format.fractionBits :=
      Nat.le_mul_of_pos_right _ hone
    rw [Nat.pow_succ] at hcarry
    omega
  · have hsignificand := @le_roundQuotient_iff (num * 2 ^ format.lowestExponent)
      (den * 2 ^ (rest + 1)) (2 ^ (format.fractionBits + 1))
      (Nat.mul_pos hden (Nat.two_pow_pos _)) (by rw [Nat.pow_succ]; omega)
    have hunit : den * 2 ^ (rest + 1) = 2 * (den * 2 ^ rest) := by ring
    have hproduct : den * 2 ^ (rest + 1) * 2 ^ (format.fractionBits + 1) =
        4 * (den * 2 ^ rest * 2 ^ format.fractionBits) := by ring
    rw [hproduct, hunit, Nat.pow_succ] at hsignificand
    rw [hunit, Nat.add_mul, Nat.one_mul]
    omega
  · have hfull := h.le_significand hden (by omega)
    have hexponents : (rest + 2) * 2 ^ format.fractionBits ≤ exponent * 2 ^ format.fractionBits :=
      Nat.mul_le_mul_right _ habove
    have hlow : 4 * (den * 2 ^ rest * 2 ^ format.fractionBits) ≤
        num * 2 ^ format.lowestExponent :=
      calc 4 * (den * 2 ^ rest * 2 ^ format.fractionBits)
          = den * 2 ^ (format.fractionBits + rest + 2) := by ring
        _ ≤ den * 2 ^ (format.fractionBits + exponent) :=
          Nat.mul_le_mul_left _ (Nat.pow_le_pow_right Nat.two_pos (by omega))
        _ ≤ num * 2 ^ format.lowestExponent := h.low.resolve_left (by omega)
    rw [Nat.add_mul] at hexponents
    omega

/-- What rounding makes infinite. -/
theorem round_eq_infinity_iff (hden : 0 < den) (num : Nat) (htop : 3 ≤ format.topExponent) :
    format.round num den = format.infinity ↔
      (format.overflow : ℚ) / 2 ^ format.lowestExponent ≤ num / den := by
  obtain ⟨exponent, hat⟩ := @exists_roundsAt format den hden num
  have hden' : (0 : ℚ) < den := by exact_mod_cast hden
  rw [hat.round_eq_infinity_iff hden htop, div_le_div_iff₀ (by positivity) hden',
    Nat.mul_comm den]
  exact_mod_cast Iff.rfl

theorem round_le_infinity (format : FloatFormat) (num den : Nat) :
    format.round num den ≤ format.infinity :=
  Nat.min_le_left _ _

theorem overflow_eq {high low : Nat} (h : format.overflow + 2 ^ low * 2 ^ format.lowestExponent =
    2 ^ high * 2 ^ format.lowestExponent) :
    (format.overflow : ℚ) / 2 ^ format.lowestExponent = 2 ^ high - 2 ^ low := by
  have hcast := congrArg (Nat.cast : Nat → ℚ) h
  simp only [Nat.cast_add, Nat.cast_mul, Nat.cast_pow, Nat.cast_ofNat] at hcast
  rwa [div_eq_iff (by positivity), sub_mul, eq_sub_iff_add_eq]

theorem double_overflow :
    (double.overflow : ℚ) / 2 ^ double.lowestExponent = 2 ^ 1024 - 2 ^ 970 :=
  overflow_eq (by decide +kernel)

theorem single_overflow :
    (single.overflow : ℚ) / 2 ^ single.lowestExponent = 2 ^ 128 - 2 ^ 103 :=
  overflow_eq (by decide +kernel)

end FloatFormat

/-- A decimal is read as infinity from half a unit of the last place above the
greatest finite double on. -/
theorem Decimal.round_eq_infinity_iff (x : Decimal) :
    double.ofRatio x.toRatio = double.infinity ↔ 2 ^ 1024 - 2 ^ 970 ≤ x.value := by
  rw [FloatFormat.ofRatio, FloatFormat.round_eq_infinity_iff x.toRatio_pos _ (by decide),
    FloatFormat.double_overflow, x.value_eq]

namespace Binary64

/-- An integer of 64 bits is a finite double. -/
theorem isFinite_ofInt {n : Int} (h : n.natAbs ≤ 2 ^ 64) : (ofInt n).isFinite = true := by
  have hround : double.round n.natAbs 1 < double.infinity :=
    round_lt_infinity Nat.one_pos (Nat.le_trans h (by decide))
  rw [isFinite_iff, ofInt, magnitude_ofMagnitude (Nat.lt_trans hround (by decide))]
  exact hround

/-- A double is narrowed to a finite single if it is finite and not too large. -/
theorem isFinite_narrow_iff {x : Binary64} : x.narrow.isFinite = true ↔
    x.isFinite = true ∧ double.value x.magnitude < 2 ^ 128 - 2 ^ 103 := by
  rw [Binary32.isFinite_iff, isFinite_iff, narrow]
  unfold FloatFormat.convert
  split
  next hfinite =>
    have hround :=
      single.round_le_infinity (double.units x.magnitude) (2 ^ double.lowestExponent)
    have hinfinity := FloatFormat.round_eq_infinity_iff (Nat.two_pow_pos double.lowestExponent)
      (double.units x.magnitude) (by decide : 3 ≤ single.topExponent)
    rw [FloatFormat.single_overflow, ← FloatFormat.value_eq] at hinfinity
    rw [FloatFormat.ofRatio, FloatFormat.toRatio_eq,
      Binary32.magnitude_ofMagnitude (Nat.lt_of_le_of_lt hround (by decide)), hround.lt_iff_ne,
      ne_eq, hinfinity, not_le, and_iff_right hfinite]
  next hinfinite =>
    refine iff_of_false ?_ fun h => hinfinite h.1
    split
    · rw [Binary32.magnitude_ofMagnitude (by decide)]
      exact Nat.lt_irrefl _
    · rw [Binary32.magnitude_ofMagnitude (by decide)]
      decide

end Binary64

end WireCodec
