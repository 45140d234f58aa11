import WireCodec.Floating.Shortest
import WireCodec.Proofs.Floating.Exact

/-! # Rounding to the nearest number

Rounding keeps the order of fractions and moves a fraction by half a unit of
its last place at most. Every fraction in the rounding interval of a magnitude
is rounded to that magnitude.
-/

namespace WireCodec

theorem pow_eq (b n : Nat) : Nat.pow b n = b ^ n := rfl

/-! ## Quotients -/

theorem roundQuotient_bounds {den : Nat} (hden : 0 < den) (num : Nat) :
    2 * (den * roundQuotient num den) ≤ 2 * num + den ∧
      2 * num ≤ 2 * (den * roundQuotient num den) + den := by
  have hsplit := Nat.div_add_mod num den
  have hlt := Nat.mod_lt num hden
  have hparity := Nat.mod_two_eq_zero_or_one (num / den)
  unfold roundQuotient
  dsimp only
  split
  next => omega
  next =>
    split
    next =>
      rw [Nat.mul_add]
      omega
    next =>
      rcases hparity with hzero | hone
      · rw [hzero, Nat.add_zero]
        omega
      · rw [hone, Nat.mul_add]
        omega

theorem div_le_roundQuotient (num den : Nat) :
    num / den ≤ roundQuotient num den ∧ roundQuotient num den ≤ num / den + 1 := by
  unfold roundQuotient
  dsimp only
  split
  next => omega
  next => split <;> omega

/-- A quotient is rounded to the number that is nearer to it than one half,
or as near and even. -/
theorem roundQuotient_eq {num den n : Nat} (hden : 0 < den)
    (hlow : 2 * (den * n) ≤ 2 * num + den) (hhigh : 2 * num ≤ 2 * (den * n) + den)
    (htie : n % 2 = 0 ∨ 2 * (den * n) < 2 * num + den ∧ 2 * num < 2 * (den * n) + den) :
    roundQuotient num den = n := by
  have hsplit := Nat.div_add_mod num den
  have hlt := Nat.mod_lt num hden
  have hle : num / den ≤ n := by
    by_contra hgt
    have hmul : den * (n + 1) ≤ den * (num / den) := Nat.mul_le_mul_left den (by omega)
    rw [Nat.mul_add] at hmul
    omega
  have hge : n ≤ num / den + 1 := by
    by_contra hgt
    have hmul : den * (num / den + 2) ≤ den * n := Nat.mul_le_mul_left den (by omega)
    rw [Nat.mul_add] at hmul
    omega
  obtain heq | heq : n = num / den ∨ n = num / den + 1 := by omega
  · rw [← heq] at hsplit
    unfold roundQuotient
    dsimp only
    rw [← heq]
    split
    next => rfl
    next =>
      rw [if_neg (by omega)]
      omega
  · rw [heq, Nat.mul_add] at hlow hhigh htie
    unfold roundQuotient
    dsimp only
    rw [if_neg (by omega), heq]
    split
    next => rfl
    next => omega

theorem roundQuotient_mono {num other : Nat} (h : num ≤ other) (den : Nat) :
    roundQuotient num den ≤ roundQuotient other den := by
  have hle : num / den ≤ other / den := Nat.div_le_div_right h
  rcases Nat.eq_or_lt_of_le hle with heq | hlt
  · have hfirst := Nat.div_add_mod num den
    have hsecond := Nat.div_add_mod other den
    have hmod : num % den ≤ other % den := by
      rw [← heq] at hsecond
      omega
    unfold roundQuotient
    rw [← heq]
    dsimp only
    split
    next =>
      split
      next => exact Nat.le_refl _
      next => split <;> omega
    next hnum =>
      have hother : ¬2 * (other % den) < den := by omega
      rw [if_neg hother]
      split <;> split <;> omega
  · have hfirst := (div_le_roundQuotient num den).2
    have hsecond := (div_le_roundQuotient other den).1
    omega

namespace FloatFormat

variable {format : FloatFormat}

/-! ## Exponents -/

/-- The significand of a fraction has its last bit at an exponent: it is full,
or the exponent is the lowest one. -/
structure RoundsAt (format : FloatFormat) (num den exponent : Nat) : Prop where
  low : exponent = 0 ∨
    den * 2 ^ (format.fractionBits + exponent) ≤ num * 2 ^ format.lowestExponent
  high : num * 2 ^ format.lowestExponent < den * 2 ^ (format.fractionBits + exponent + 1)

variable {num den exponent : Nat}

theorem exists_roundsAt (hden : 0 < den) (num : Nat) :
    ∃ exponent, format.RoundsAt num den exponent := by
  generalize hquotient : num * 2 ^ format.lowestExponent / den = quotient
  refine ⟨Nat.log2 quotient - format.fractionBits, ?_, ?_⟩
  · rcases Nat.eq_zero_or_pos (Nat.log2 quotient - format.fractionBits) with hzero | hpos
    · exact .inl hzero
    · have hne : quotient ≠ 0 := by
        rintro rfl
        simp at hpos
      have hlog := Nat.log2_self_le hne
      rw [Nat.add_sub_cancel' (by omega), Nat.mul_comm]
      exact .inr ((Nat.le_div_iff_mul_le hden).mp (hquotient ▸ hlog))
  · have hlog : quotient < 2 ^ (Nat.log2 quotient + 1) := Nat.lt_log2_self
    have hle : 2 ^ (Nat.log2 quotient + 1) ≤
        2 ^ (format.fractionBits + (Nat.log2 quotient - format.fractionBits) + 1) :=
      Nat.pow_le_pow_right Nat.two_pos (by omega)
    rw [Nat.mul_comm den]
    refine (Nat.div_lt_iff_lt_mul hden).mp ?_
    rw [hquotient]
    exact Nat.lt_of_lt_of_le hlog hle

/-- What rounding answers. -/
theorem RoundsAt.round_eq (hden : 0 < den) (h : format.RoundsAt num den exponent) :
    format.round num den = min format.infinity (exponent * 2 ^ format.fractionBits +
      roundQuotient (num * 2 ^ format.lowestExponent) (den * 2 ^ exponent)) := by
  obtain ⟨hlow, hhigh⟩ := h
  have hexponent : Nat.log2 (num * 2 ^ format.lowestExponent / den) - format.fractionBits =
      exponent := by
    rw [Nat.mul_comm den] at hhigh
    have hlt := (Nat.div_lt_iff_lt_mul hden).mpr hhigh
    by_cases hzero : num * 2 ^ format.lowestExponent / den = 0
    · rcases hlow with rfl | hlow
      · simp [hzero]
      · rw [Nat.mul_comm den] at hlow
        have hle := (Nat.le_div_iff_mul_le hden).mpr hlow
        have hpos := Nat.two_pow_pos (format.fractionBits + exponent)
        omega
    · have hlog := (Nat.log2_lt hzero).mpr hlt
      rcases hlow with rfl | hlow
      · omega
      · rw [Nat.mul_comm den] at hlow
        have hle := (Nat.le_log2 hzero).mpr ((Nat.le_div_iff_mul_le hden).mpr hlow)
        omega
  unfold round
  change min _ ((Nat.log2 (num * 2 ^ format.lowestExponent / den) - _) * 2 ^ format.fractionBits +
    roundQuotient (num * 2 ^ format.lowestExponent)
      (den * 2 ^ (Nat.log2 (num * 2 ^ format.lowestExponent / den) - _))) = _
  rw [hexponent]

/-- The significand does not carry beyond the next power of two. -/
theorem RoundsAt.significand_le (hden : 0 < den) (h : format.RoundsAt num den exponent) :
    roundQuotient (num * 2 ^ format.lowestExponent) (den * 2 ^ exponent) ≤
      2 ^ (format.fractionBits + 1) := by
  have hscale : 0 < den * 2 ^ exponent := Nat.mul_pos hden (Nat.two_pow_pos exponent)
  have htop : den * 2 ^ (format.fractionBits + exponent + 1) =
      den * 2 ^ exponent * 2 ^ (format.fractionBits + 1) := by ring
  have hmono := roundQuotient_mono (Nat.le_of_lt (htop ▸ h.high)) (den * 2 ^ exponent)
  rwa [roundQuotient_mul hscale] at hmono

theorem RoundsAt.le_significand (hden : 0 < den) (h : format.RoundsAt num den exponent)
    (hpos : exponent ≠ 0) : 2 ^ format.fractionBits ≤
      roundQuotient (num * 2 ^ format.lowestExponent) (den * 2 ^ exponent) := by
  have hscale : 0 < den * 2 ^ exponent := Nat.mul_pos hden (Nat.two_pow_pos exponent)
  have hbottom : den * 2 ^ (format.fractionBits + exponent) =
      den * 2 ^ exponent * 2 ^ format.fractionBits := by ring
  have hmono := roundQuotient_mono (hbottom ▸ h.low.resolve_left hpos) (den * 2 ^ exponent)
  rwa [roundQuotient_mul hscale] at hmono

/-- Rounding keeps the order. -/
theorem round_mono {other : Nat} (hden : 0 < den) (h : num ≤ other) :
    format.round num den ≤ format.round other den := by
  obtain ⟨first, hfirst⟩ := @exists_roundsAt format den hden num
  obtain ⟨second, hsecond⟩ := @exists_roundsAt format den hden other
  have hscaled : num * 2 ^ format.lowestExponent ≤ other * 2 ^ format.lowestExponent :=
    Nat.mul_le_mul_right _ h
  have hle : first ≤ second := by
    by_contra hgt
    have hlow := hfirst.low.resolve_left (by omega)
    have hpow : 2 ^ (format.fractionBits + second + 1) ≤ 2 ^ (format.fractionBits + first) :=
      Nat.pow_le_pow_right Nat.two_pos (by omega)
    have hmul := Nat.mul_le_mul_left den hpow
    have hhigh := hsecond.high
    omega
  rw [hfirst.round_eq hden, hsecond.round_eq hden]
  refine Nat.le_min.mpr ⟨Nat.min_le_left _ _, Nat.le_trans (Nat.min_le_right _ _) ?_⟩
  rcases Nat.eq_or_lt_of_le hle with rfl | hless
  · exact Nat.add_le_add_left (roundQuotient_mono hscaled _) _
  · have hcarry := hfirst.significand_le hden
    have hfull := hsecond.le_significand hden (by omega)
    have hexponents : (first + 1) * 2 ^ format.fractionBits ≤ second * 2 ^ format.fractionBits :=
      Nat.mul_le_mul_right _ hless
    rw [Nat.add_mul] at hexponents
    rw [Nat.pow_succ] at hcarry
    omega

/-! ## Units -/

/-- A magnitude has an exponent and a significand that is full, or the lowest
exponent. -/
theorem exists_decompose (format : FloatFormat) (magnitude : Nat) : ∃ significand exponent,
    format.decompose magnitude = (significand, exponent) ∧
      magnitude = exponent * 2 ^ format.fractionBits + significand ∧
      significand < 2 ^ (format.fractionBits + 1) ∧
      (exponent = 0 ∨ 2 ^ format.fractionBits ≤ significand) := by
  rcases exists_parts format magnitude with hlt | ⟨significand, exponent, hlow, hhigh, rfl⟩
  · exact ⟨magnitude, 0, decompose_of_lt hlt, by simp, by omega, .inl rfl⟩
  · exact ⟨significand, exponent, decompose_of_le hlow hhigh, rfl, hhigh, .inr hlow⟩

/-- The units of an exponent and a significand, which may have been carried to
the next power of two. -/
theorem units_of_parts {significand : Nat}
    (hlow : exponent = 0 ∨ 2 ^ format.fractionBits ≤ significand)
    (hhigh : significand ≤ 2 ^ (format.fractionBits + 1)) :
    format.units (exponent * 2 ^ format.fractionBits + significand) =
      significand * 2 ^ exponent := by
  have hdouble : 2 ^ (format.fractionBits + 1) = 2 ^ format.fractionBits * 2 := Nat.pow_succ ..
  rcases Nat.eq_or_lt_of_le hhigh with rfl | hlt
  · have hcarry : exponent * 2 ^ format.fractionBits + 2 ^ (format.fractionBits + 1) =
        (exponent + 1) * 2 ^ format.fractionBits + 2 ^ format.fractionBits := by ring
    have hpos := Nat.two_pow_pos format.fractionBits
    rw [hcarry, units_of_le (Nat.le_refl _) (by omega)]
    ring
  · by_cases hfull : 2 ^ format.fractionBits ≤ significand
    · exact units_of_le hfull hlt
    · obtain rfl := hlow.resolve_right hfull
      rw [Nat.zero_mul, Nat.zero_add, Nat.pow_zero, Nat.mul_one, units_of_lt (by omega)]

/-- Greater magnitudes have more units. -/
theorem units_mono {magnitude other : Nat} (h : magnitude ≤ other) :
    format.units magnitude ≤ format.units other := by
  obtain ⟨significand, exponent, -, rfl, hlt, hfull⟩ := exists_decompose format magnitude
  obtain ⟨significand', exponent', -, rfl, hlt', hfull'⟩ := exists_decompose format other
  rw [units_of_parts hfull (Nat.le_of_lt hlt), units_of_parts hfull' (Nat.le_of_lt hlt')]
  have hdouble : 2 ^ (format.fractionBits + 1) = 2 ^ format.fractionBits * 2 := Nat.pow_succ ..
  rcases Nat.lt_trichotomy exponent exponent' with hless | rfl | hgreater
  · have hfull' := hfull'.resolve_left (by omega)
    have hpow : 2 ^ (format.fractionBits + 1 + exponent) ≤ 2 ^ (format.fractionBits + exponent') :=
      Nat.pow_le_pow_right Nat.two_pos (by omega)
    calc significand * 2 ^ exponent
        ≤ 2 ^ (format.fractionBits + 1) * 2 ^ exponent := Nat.mul_le_mul_right _ (by omega)
      _ = 2 ^ (format.fractionBits + 1 + exponent) := (Nat.pow_add ..).symm
      _ ≤ 2 ^ (format.fractionBits + exponent') := hpow
      _ = 2 ^ format.fractionBits * 2 ^ exponent' := Nat.pow_add ..
      _ ≤ significand' * 2 ^ exponent' := Nat.mul_le_mul_right _ hfull'
  · exact Nat.mul_le_mul_right _ (by omega)
  · have hfull := hfull.resolve_left (by omega)
    have hexponents : (exponent' + 1) * 2 ^ format.fractionBits ≤
        exponent * 2 ^ format.fractionBits := Nat.mul_le_mul_right _ hgreater
    rw [Nat.add_mul] at hexponents
    omega

/-- A product grows with its factors. -/
theorem mul_mono {magnitude other factor otherFactor : Nat} (h : magnitude ≤ other)
    (hfactor : factor ≤ otherFactor) :
    format.mul magnitude factor ≤ format.mul other otherFactor :=
  round_mono (Nat.mul_pos (Nat.two_pow_pos _) (Nat.two_pow_pos _))
    (Nat.mul_le_mul (units_mono h) (units_mono hfactor))

/-- A fraction that is rounded to a finite magnitude is moved by half a unit of
the last place of its significand at most. -/
theorem RoundsAt.near (hden : 0 < den) (h : format.RoundsAt num den exponent)
    (hfinite : format.round num den < format.infinity) :
    2 * (den * format.units (format.round num den)) ≤
        2 * (num * 2 ^ format.lowestExponent) + den * 2 ^ exponent ∧
      2 * (num * 2 ^ format.lowestExponent) ≤
        2 * (den * format.units (format.round num den)) + den * 2 ^ exponent := by
  rw [h.round_eq hden] at hfinite ⊢
  have hmin := Nat.min_eq_right (Nat.le_of_lt ((min_lt_iff.mp hfinite).resolve_left
    (Nat.lt_irrefl _)))
  have hfull : exponent = 0 ∨ 2 ^ format.fractionBits ≤
      roundQuotient (num * 2 ^ format.lowestExponent) (den * 2 ^ exponent) := by
    by_cases hzero : exponent = 0
    · exact .inl hzero
    · exact .inr (h.le_significand hden hzero)
  rw [hmin, units_of_parts hfull (h.significand_le hden)]
  have hbounds := roundQuotient_bounds (Nat.mul_pos hden (Nat.two_pow_pos exponent))
    (num * 2 ^ format.lowestExponent)
  rw [Nat.mul_comm _ (2 ^ exponent), ← Nat.mul_assoc den]
  exact hbounds

end FloatFormat

/-! ## Rounding intervals -/

/-- A fraction is in an interval, or at a bound of a closed one. -/
structure RoundingInterval.Covers (interval : RoundingInterval) (num den : Nat) : Prop where
  low : interval.lower * den ≤ num * interval.den
  high : num * interval.den ≤ interval.upper * den
  tie : interval.closed = true ∨
    interval.lower * den < num * interval.den ∧ num * interval.den < interval.upper * den

/-- Whether an interval covers a fraction depends on the quotient only. -/
theorem RoundingInterval.Covers.congr {interval : RoundingInterval} {num den num' den' : Nat}
    (hden : 0 < den) (hden' : 0 < den') (hratio : num * den' = num' * den)
    (h : interval.Covers num den) : interval.Covers num' den' := by
  obtain ⟨hlow, hhigh, htie⟩ := h
  have hpoint : num' * interval.den * den = num * interval.den * den' := by
    rw [Nat.mul_right_comm, ← hratio, Nat.mul_right_comm]
  refine ⟨?_, ?_, htie.imp_right fun h => ⟨?_, ?_⟩⟩
  · refine Nat.le_of_mul_le_mul_right ?_ hden
    rw [hpoint, Nat.mul_right_comm]
    exact Nat.mul_le_mul_right den' hlow
  · refine Nat.le_of_mul_le_mul_right ?_ hden
    rw [hpoint, Nat.mul_right_comm interval.upper]
    exact Nat.mul_le_mul_right den' hhigh
  · refine Nat.lt_of_mul_lt_mul_right (a := den) ?_
    rw [hpoint, Nat.mul_right_comm]
    exact Nat.mul_lt_mul_of_pos_right h.1 hden'
  · refine Nat.lt_of_mul_lt_mul_right (a := den) ?_
    rw [hpoint, Nat.mul_right_comm interval.upper]
    exact Nat.mul_lt_mul_of_pos_right h.2 hden'

theorem RoundingInterval.covers_of_contains {interval : RoundingInterval} {x : Decimal}
    (h : interval.contains x = true) : interval.Covers x.toRatio.1 x.toRatio.2 := by
  unfold contains at h
  dsimp only at h
  split at h
  next hclosed =>
    simp only [Bool.and_eq_true, decide_eq_true_eq] at h
    exact ⟨h.1, h.2, .inl hclosed⟩
  next =>
    simp only [Bool.and_eq_true, decide_eq_true_eq] at h
    exact ⟨Nat.le_of_lt h.1, Nat.le_of_lt h.2, .inr h⟩

namespace FloatFormat

variable {format : FloatFormat} {num den significand exponent : Nat}

/-- What is nearer to a significand than half a unit of its last place is
rounded to it. -/
theorem RoundsAt.round_of_near (hden : 0 < den) (h : format.RoundsAt num den exponent)
    (hfinite : exponent * 2 ^ format.fractionBits + significand < format.infinity)
    (hlow : 2 * (den * 2 ^ exponent * significand) ≤
      2 * (num * 2 ^ format.lowestExponent) + den * 2 ^ exponent)
    (hhigh : 2 * (num * 2 ^ format.lowestExponent) ≤
      2 * (den * 2 ^ exponent * significand) + den * 2 ^ exponent)
    (htie : significand % 2 = 0 ∨
      2 * (den * 2 ^ exponent * significand) <
          2 * (num * 2 ^ format.lowestExponent) + den * 2 ^ exponent ∧
        2 * (num * 2 ^ format.lowestExponent) <
          2 * (den * 2 ^ exponent * significand) + den * 2 ^ exponent) :
    format.round num den = exponent * 2 ^ format.fractionBits + significand := by
  rw [h.round_eq hden, roundQuotient_eq (Nat.mul_pos hden (Nat.two_pow_pos exponent)) hlow hhigh
    htie]
  exact Nat.min_eq_right (Nat.le_of_lt hfinite)

/-- What is below a power of two by less than half a unit of the place before is
rounded up to it. -/
theorem round_of_power (hden : 0 < den)
    (hfinite : (exponent + 1) * 2 ^ format.fractionBits + 2 ^ format.fractionBits <
      format.infinity)
    (hlow : 4 * (den * 2 ^ exponent * 2 ^ format.fractionBits) ≤
      2 * (num * 2 ^ format.lowestExponent) + den * 2 ^ exponent)
    (hhigh : num * 2 ^ format.lowestExponent <
      2 * (den * 2 ^ exponent * 2 ^ format.fractionBits)) :
    format.round num den = (exponent + 1) * 2 ^ format.fractionBits + 2 ^ format.fractionBits := by
  have hcarry : (exponent + 1) * 2 ^ format.fractionBits + 2 ^ format.fractionBits =
      exponent * 2 ^ format.fractionBits + 2 ^ (format.fractionBits + 1) := by ring
  have hsignificand : den * 2 ^ exponent * 2 ^ (format.fractionBits + 1) =
      2 * (den * 2 ^ exponent * 2 ^ format.fractionBits) := by ring
  have hat : format.RoundsAt num den exponent := by
    have hlast : den * 2 ^ (format.fractionBits + exponent) =
        den * 2 ^ exponent * 2 ^ format.fractionBits := by ring
    have hnext : den * 2 ^ (format.fractionBits + exponent + 1) =
        2 * (den * 2 ^ exponent * 2 ^ format.fractionBits) := by ring
    have hmul : den * 2 ^ exponent * 1 ≤ den * 2 ^ exponent * 2 ^ format.fractionBits :=
      Nat.mul_le_mul_left _ (Nat.two_pow_pos _)
    exact ⟨.inr (by rw [hlast]; omega), by rw [hnext]; omega⟩
  rw [hcarry]
  refine hat.round_of_near hden (hcarry ▸ hfinite) ?_ ?_ (.inl ?_)
  · rw [hsignificand]
    omega
  · rw [hsignificand]
    omega
  · rw [Nat.pow_succ]
    omega

/-- The bounds of a rounding interval, in units of the last place. -/
theorem bounds_of_covers {magnitude below : Nat}
    (hdecompose : format.decompose magnitude = (significand, exponent))
    (hbelow : (if significand = 2 ^ format.fractionBits ∧ exponent ≠ 0 then 1 else 2) = below)
    (h : (RoundingInterval.ofMagnitude format magnitude).Covers num den) :
    4 * (den * 2 ^ exponent * significand) ≤
        4 * (num * 2 ^ format.lowestExponent) + below * (den * 2 ^ exponent) ∧
      4 * (num * 2 ^ format.lowestExponent) ≤
        4 * (den * 2 ^ exponent * significand) + 2 * (den * 2 ^ exponent) ∧
      (significand % 2 = 0 ∨
        4 * (den * 2 ^ exponent * significand) <
            4 * (num * 2 ^ format.lowestExponent) + below * (den * 2 ^ exponent) ∧
          4 * (num * 2 ^ format.lowestExponent) <
            4 * (den * 2 ^ exponent * significand) + 2 * (den * 2 ^ exponent)) := by
  obtain ⟨hlow, hhigh, htie⟩ := h
  unfold RoundingInterval.ofMagnitude at hlow hhigh htie
  simp only [hdecompose, pow_eq, decide_eq_true_eq, hbelow] at hlow hhigh htie
  have hpoint : num * (4 * 2 ^ format.lowestExponent) = 4 * (num * 2 ^ format.lowestExponent) := by
    ring
  have hupper : (4 * significand + 2) * 2 ^ exponent * den =
      4 * (den * 2 ^ exponent * significand) + 2 * (den * 2 ^ exponent) := by ring
  have hlower : 4 * (den * 2 ^ exponent * significand) ≤
      (4 * significand - below) * 2 ^ exponent * den + below * (den * 2 ^ exponent) := by
    have hle : 4 * significand ≤ 4 * significand - below + below := by omega
    calc 4 * (den * 2 ^ exponent * significand)
        = 4 * significand * (den * 2 ^ exponent) := by ring
      _ ≤ (4 * significand - below + below) * (den * 2 ^ exponent) := Nat.mul_le_mul_right _ hle
      _ = (4 * significand - below) * 2 ^ exponent * den + below * (den * 2 ^ exponent) := by ring
  rw [hpoint] at hlow hhigh htie
  rw [hupper] at hhigh htie
  exact ⟨by omega, hhigh, htie.imp_right fun h => ⟨by omega, h.2⟩⟩

/-- Every fraction in the rounding interval of a magnitude is rounded to it. -/
theorem round_of_covers {magnitude : Nat} (hden : 0 < den) (hfinite : magnitude < format.infinity)
    (h : (RoundingInterval.ofMagnitude format magnitude).Covers num den) :
    format.round num den = magnitude := by
  obtain ⟨significand, exponent, hdecompose, rfl, hlt, hfull⟩ := exists_decompose format magnitude
  obtain ⟨below, hbelow⟩ : ∃ below, (if significand = 2 ^ format.fractionBits ∧ exponent ≠ 0
    then 1 else 2) = below := ⟨_, rfl⟩
  obtain ⟨hlow, hhigh, htie⟩ := bounds_of_covers hdecompose hbelow h
  have htwo : below * (den * 2 ^ exponent) ≤ 2 * (den * 2 ^ exponent) :=
    Nat.mul_le_mul_right _ (by split at hbelow <;> omega)
  have hscale : 0 < den * 2 ^ exponent := Nat.mul_pos hden (Nat.two_pow_pos exponent)
  have hlast : den * 2 ^ (format.fractionBits + exponent) =
      den * 2 ^ exponent * 2 ^ format.fractionBits := by ring
  by_cases hat : exponent = 0 ∨
      den * 2 ^ (format.fractionBits + exponent) ≤ num * 2 ^ format.lowestExponent
  · have hnext : den * 2 ^ (format.fractionBits + exponent + 1) =
        den * 2 ^ exponent * 2 ^ (format.fractionBits + 1) := by ring
    have hmul : den * 2 ^ exponent * (significand + 1) ≤
        den * 2 ^ exponent * 2 ^ (format.fractionBits + 1) := Nat.mul_le_mul_left _ hlt
    rw [Nat.mul_add, Nat.mul_one] at hmul
    exact RoundsAt.round_of_near hden ⟨hat, by rw [hnext]; omega⟩ hfinite (by omega) (by omega)
      (htie.imp_right fun ⟨_, _⟩ => ⟨by omega, by omega⟩)
  · -- the fraction is below the power of two that the magnitude then is
    obtain ⟨hne, hless⟩ := not_or.mp hat
    obtain ⟨previous, rfl⟩ : ∃ previous, exponent = previous + 1 := ⟨exponent - 1, by omega⟩
    rw [hlast] at hless
    obtain rfl : significand = 2 ^ format.fractionBits := by
      by_contra hother
      have hmul : den * 2 ^ (previous + 1) * (2 ^ format.fractionBits + 1) ≤
          den * 2 ^ (previous + 1) * significand :=
        Nat.mul_le_mul_left _ (Nat.lt_of_le_of_ne (hfull.resolve_left hne) (Ne.symm hother))
      rw [Nat.mul_add, Nat.mul_one] at hmul
      omega
    obtain rfl : 1 = below := by simpa using hbelow
    have hunit : den * 2 ^ (previous + 1) = 2 * (den * 2 ^ previous) := by ring
    have hpower : den * 2 ^ (previous + 1) * 2 ^ format.fractionBits =
        2 * (den * 2 ^ previous * 2 ^ format.fractionBits) := by ring
    rw [hpower] at hless
    rw [hpower, hunit] at hlow
    exact round_of_power hden hfinite (by omega) (by omega)

end FloatFormat

end WireCodec
