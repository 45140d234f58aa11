import Mathlib.Data.Nat.Log
import Mathlib.Tactic.Positivity
import Mathlib.Tactic.Ring
import WireCodec.Floating.NonFinite

/-! # Exact conversions

Rounding gives back every number that a format has, so a single survives being
widened to a double and narrowed again. Of a NaN nothing but being one is
kept by the word that is written for it.
-/

namespace WireCodec

theorem roundQuotient_mul {q d : Nat} (hd : 0 < d) : roundQuotient (d * q) d = q := by
  unfold roundQuotient
  simp [Nat.mul_div_cancel_left q hd, hd]

namespace FloatFormat

variable (format : FloatFormat)

/-- A finite magnitude as a multiple of the least one. -/
def units (magnitude : Nat) : Nat :=
  (format.decompose magnitude).1 * 2 ^ (format.decompose magnitude).2

theorem toRatio_eq (magnitude : Nat) :
    format.toRatio magnitude = (format.units magnitude, 2 ^ format.lowestExponent) :=
  rfl

variable {format}

theorem decompose_of_lt {magnitude : Nat} (h : magnitude < 2 ^ format.fractionBits) :
    format.decompose magnitude = (magnitude, 0) := by
  have hdiv : magnitude / Nat.pow 2 format.fractionBits = 0 := Nat.div_eq_of_lt h
  have hmod : magnitude % Nat.pow 2 format.fractionBits = magnitude := Nat.mod_eq_of_lt h
  unfold decompose
  simp only [hdiv, hmod, if_true]

theorem decompose_of_le {significand exponent : Nat} (hlow : 2 ^ format.fractionBits ≤ significand)
    (hhigh : significand < 2 ^ (format.fractionBits + 1)) :
    format.decompose (exponent * 2 ^ format.fractionBits + significand) =
      (significand, exponent) := by
  have hpos : 0 < 2 ^ format.fractionBits := Nat.two_pow_pos _
  obtain ⟨fraction, rfl⟩ := Nat.exists_eq_add_of_le hlow
  have hfraction : fraction < 2 ^ format.fractionBits := by omega
  have hsplit : exponent * 2 ^ format.fractionBits + (2 ^ format.fractionBits + fraction) =
      fraction + 2 ^ format.fractionBits * (exponent + 1) := by ring
  have hdiv : (fraction + 2 ^ format.fractionBits * (exponent + 1)) /
      Nat.pow 2 format.fractionBits = exponent + 1 := by
    change (fraction + 2 ^ format.fractionBits * (exponent + 1)) / 2 ^ format.fractionBits = _
    rw [Nat.add_mul_div_left _ _ hpos, Nat.div_eq_of_lt hfraction, Nat.zero_add]
  have hmod : (fraction + 2 ^ format.fractionBits * (exponent + 1)) %
      Nat.pow 2 format.fractionBits = fraction := by
    change (fraction + 2 ^ format.fractionBits * (exponent + 1)) % 2 ^ format.fractionBits = _
    rw [Nat.add_mul_mod_self_left, Nat.mod_eq_of_lt hfraction]
  rw [hsplit]
  unfold decompose
  simp only [hdiv, hmod, Nat.succ_ne_zero, if_false, Nat.add_sub_cancel]
  rw [Nat.add_comm fraction]
  rfl

/-- Subnormal magnitudes are counted one by one. -/
theorem units_of_lt {magnitude : Nat} (h : magnitude < 2 ^ format.fractionBits) :
    format.units magnitude = magnitude := by
  rw [units, decompose_of_lt h, Nat.pow_zero, Nat.mul_one]

/-- The other magnitudes have an exponent and a full significand. -/
theorem units_of_le {significand exponent : Nat} (hlow : 2 ^ format.fractionBits ≤ significand)
    (hhigh : significand < 2 ^ (format.fractionBits + 1)) :
    format.units (exponent * 2 ^ format.fractionBits + significand) =
      significand * 2 ^ exponent := by
  rw [units, decompose_of_le hlow hhigh]

theorem exists_parts (format : FloatFormat) (magnitude : Nat) :
    magnitude < 2 ^ format.fractionBits ∨ ∃ significand exponent,
      2 ^ format.fractionBits ≤ significand ∧ significand < 2 ^ (format.fractionBits + 1) ∧
        magnitude = exponent * 2 ^ format.fractionBits + significand := by
  rcases Nat.lt_or_ge magnitude (2 ^ format.fractionBits) with hlt | hge
  · exact .inl hlt
  · obtain ⟨rest, rfl⟩ := Nat.exists_eq_add_of_le hge
    have hdiv := Nat.div_add_mod rest (2 ^ format.fractionBits)
    have hmod := Nat.mod_lt rest (Nat.two_pow_pos format.fractionBits)
    refine .inr ⟨2 ^ format.fractionBits + rest % 2 ^ format.fractionBits,
      rest / 2 ^ format.fractionBits, Nat.le_add_right _ _, by omega, ?_⟩
    rw [Nat.mul_comm] at hdiv
    omega

/-- Rounding gives back a magnitude from any fraction that is equal to it. -/
theorem round_of_units {num den magnitude : Nat} (hden : 0 < den)
    (hfinite : magnitude < format.infinity)
    (h : num * 2 ^ format.lowestExponent = den * format.units magnitude) :
    format.round num den = magnitude := by
  -- the exponent that rounding finds is the one that the magnitude has
  have hround : ∀ significand exponent, format.units magnitude = significand * 2 ^ exponent →
      Nat.log2 (format.units magnitude) - format.fractionBits = exponent →
      magnitude = exponent * 2 ^ format.fractionBits + significand →
      format.round num den = magnitude := by
    intro significand exponent hunits hlog hmagnitude
    have hquotient : den * format.units magnitude = den * 2 ^ exponent * significand := by
      rw [hunits]
      ring
    unfold round
    simp only [Nat.pow_eq]
    rw [h, Nat.mul_div_cancel_left _ hden, hlog, hquotient,
      roundQuotient_mul (Nat.mul_pos hden (Nat.two_pow_pos exponent)), ← hmagnitude]
    exact Nat.min_eq_right (Nat.le_of_lt hfinite)
  rcases exists_parts format magnitude with hlt | ⟨significand, exponent, hlow, hhigh, rfl⟩
  · refine hround magnitude 0 (by simp [units_of_lt hlt]) ?_ (by simp)
    rw [units_of_lt hlt]
    by_cases hzero : magnitude = 0
    · simp [hzero]
    · have hlog := (Nat.log2_lt hzero).mpr hlt
      omega
  · refine hround significand exponent (units_of_le hlow hhigh) ?_ rfl
    have hpos : 0 < significand := Nat.lt_of_lt_of_le (Nat.two_pow_pos _) hlow
    have hlog : Nat.log2 (significand * 2 ^ exponent) = format.fractionBits + exponent := by
      refine (Nat.log2_eq_iff (by positivity)).mpr ⟨?_, ?_⟩
      · rw [pow_add]
        exact Nat.mul_le_mul_right _ hlow
      · rw [Nat.add_right_comm, pow_add]
        exact Nat.mul_lt_mul_of_pos_right hhigh (Nat.two_pow_pos exponent)
    rw [units_of_le hlow hhigh, hlog, Nat.add_sub_cancel_left]

/-- What has few enough digits and is not too large is a magnitude of the format. -/
theorem exists_units {significand exponent : Nat}
    (hsignificand : significand < 2 ^ (format.fractionBits + 1))
    (hexponent : exponent + 1 < format.topExponent) :
    ∃ magnitude, magnitude < format.infinity ∧
      format.units magnitude = significand * 2 ^ exponent := by
  have hinfinity : ∀ n, n < (exponent + 2) * 2 ^ format.fractionBits → n < format.infinity :=
    fun n hn => Nat.lt_of_lt_of_le hn (Nat.mul_le_mul_right _ hexponent)
  induction exponent generalizing significand with
  | zero =>
      rcases Nat.lt_or_ge significand (2 ^ format.fractionBits) with hlt | hge
      · exact ⟨significand, hinfinity _ (by omega), by simp [units_of_lt hlt]⟩
      · have hunits := @units_of_le format significand 0 hge hsignificand
        exact ⟨significand, hinfinity _ (by omega), by simpa using hunits⟩
  | succ exponent ih =>
      rcases Nat.lt_or_ge significand (2 ^ format.fractionBits) with hlt | hge
      · have hdouble : 2 * significand < 2 ^ (format.fractionBits + 1) := by omega
        obtain ⟨magnitude, hfinite, hunits⟩ := ih hdouble (by omega) fun n hn =>
          hinfinity n (Nat.lt_of_lt_of_le hn (Nat.mul_le_mul_right _ (by omega)))
        exact ⟨magnitude, hfinite, by rw [hunits]; ring⟩
      · refine ⟨_, hinfinity _ ?_, units_of_le hge hsignificand⟩
        rw [Nat.add_mul (exponent + 1) 2]
        omega

/-- A number is the same in a format that has its digits and exponents. -/
theorem convert_of_units {source : FloatFormat} {magnitude other : Nat}
    (hfinite : magnitude < source.infinity) (hother : other < format.infinity)
    (h : source.units magnitude * 2 ^ format.lowestExponent =
      2 ^ source.lowestExponent * format.units other) :
    format.convert source magnitude = other := by
  unfold convert
  rw [if_pos hfinite, toRatio_eq]
  exact round_of_units (Nat.two_pow_pos _) hother h

/-! ## Signs -/

theorem isNegative_signed {negative : Bool} {magnitude : Nat}
    (h : magnitude < 2 ^ format.signPosition) :
    format.isNegative (format.signed negative magnitude) = negative := by
  unfold isNegative signed
  cases negative with
  | false => exact Nat.testBit_lt_two_pow h
  | true =>
      rw [if_pos rfl, Nat.add_comm]
      change Nat.testBit (2 ^ format.signPosition + magnitude) _ = true
      rw [Nat.testBit_two_pow_add_eq, Nat.testBit_lt_two_pow h]
      rfl

theorem magnitude_signed {negative : Bool} {magnitude : Nat}
    (h : magnitude < 2 ^ format.signPosition) :
    format.magnitude (format.signed negative magnitude) = magnitude := by
  unfold FloatFormat.magnitude signed
  change (if negative then magnitude + 2 ^ format.signPosition else magnitude) %
    2 ^ format.signPosition = magnitude
  cases negative <;> simp [Nat.mod_eq_of_lt h]

theorem signed_lt {negative : Bool} {magnitude : Nat} (h : magnitude < 2 ^ format.signPosition) :
    format.signed negative magnitude < 2 ^ (format.signPosition + 1) := by
  unfold signed
  change (if negative then magnitude + 2 ^ format.signPosition else magnitude) < _
  rw [pow_succ]
  split <;> omega

theorem signed_isNegative_magnitude {pattern : Nat} (h : pattern < 2 ^ (format.signPosition + 1)) :
    format.signed (format.isNegative pattern) (format.magnitude pattern) = pattern := by
  have hdiv := Nat.div_add_mod pattern (2 ^ format.signPosition)
  have hlt : pattern / 2 ^ format.signPosition < 2 :=
    Nat.div_lt_of_lt_mul (by rwa [pow_succ] at h)
  unfold isNegative FloatFormat.magnitude signed
  rw [Nat.testBit_eq_decide_div_mod_eq]
  change (if decide (_ = 1) = true then pattern % 2 ^ format.signPosition + 2 ^ format.signPosition
    else pattern % 2 ^ format.signPosition) = pattern
  rcases Nat.le_one_iff_eq_zero_or_eq_one.mp (Nat.le_of_lt_succ hlt) with hzero | hone
  · rw [hzero] at hdiv ⊢
    simpa using hdiv
  · rw [hone] at hdiv ⊢
    simp only [Nat.mul_one] at hdiv
    simp
    omega

end FloatFormat

/-! ## Doubles -/

namespace Binary64

/-- The number itself, or the standard NaN for any NaN. -/
def standard (x : Binary64) : Binary64 :=
  if x.isNaN then .ofMagnitude false FloatFormat.double.quietNaN else x

theorem bits_ofMagnitude {negative : Bool} {magnitude : Nat}
    (h : magnitude < 2 ^ FloatFormat.double.signPosition) :
    (ofMagnitude negative magnitude).bits.toNat = FloatFormat.double.signed negative magnitude := by
  have hlt := @FloatFormat.signed_lt .double negative _ h
  exact UInt64.toNat_ofNat_of_lt' hlt

theorem isNegative_ofMagnitude {negative : Bool} {magnitude : Nat}
    (h : magnitude < 2 ^ FloatFormat.double.signPosition) :
    (ofMagnitude negative magnitude).isNegative = negative := by
  unfold isNegative
  rw [bits_ofMagnitude h, FloatFormat.isNegative_signed h]

theorem magnitude_ofMagnitude {negative : Bool} {magnitude : Nat}
    (h : magnitude < 2 ^ FloatFormat.double.signPosition) :
    (ofMagnitude negative magnitude).magnitude = magnitude := by
  unfold Binary64.magnitude
  rw [bits_ofMagnitude h, FloatFormat.magnitude_signed h]

theorem ofMagnitude_isNegative_magnitude (x : Binary64) :
    ofMagnitude x.isNegative x.magnitude = x := by
  obtain ⟨bits⟩ := x
  unfold ofMagnitude isNegative Binary64.magnitude
  rw [FloatFormat.signed_isNegative_magnitude bits.toNat_lt, UInt64.ofNat_toNat]

theorem isFinite_iff {x : Binary64} :
    x.isFinite = true ↔ x.magnitude < FloatFormat.double.infinity :=
  decide_eq_true_iff

theorem isNaN_iff {x : Binary64} : x.isNaN = true ↔ FloatFormat.double.infinity < x.magnitude :=
  decide_eq_true_iff

theorem standard_of_isFinite {x : Binary64} (h : x.isFinite = true) : x.standard = x := by
  have hnan : ¬x.isNaN = true := fun hnan =>
    Nat.lt_asymm (isFinite_iff.mp h) (isNaN_iff.mp hnan)
  rw [standard, if_neg hnan]

/-- The word for a number that is not finite is read as that number, but for
the sign and the payload of a NaN. -/
theorem ofNonFinite?_word {x : Binary64} (h : ¬x.isFinite = true) :
    ofNonFinite? x.word = some x.standard := by
  by_cases hnan : x.isNaN = true
  · rw [word, standard, if_pos hnan, if_pos hnan]
    rfl
  · have hinfinity : x.magnitude = FloatFormat.double.infinity :=
      Nat.le_antisymm (Nat.not_lt.mp (mt isNaN_iff.mpr hnan))
        (Nat.not_lt.mp (mt isFinite_iff.mpr h))
    have hx := x.ofMagnitude_isNegative_magnitude
    rw [hinfinity] at hx
    rw [word, standard, if_neg hnan, if_neg hnan, ← hx, isNegative_ofMagnitude (by decide)]
    cases x.isNegative <;> rfl

end Binary64

/-! ## Singles -/

namespace Binary32

/-- The number itself, or the standard NaN for any NaN. -/
def standard (x : Binary32) : Binary32 :=
  if x.isNaN then .ofMagnitude false FloatFormat.single.quietNaN else x

theorem ofMagnitude_isNegative_magnitude (x : Binary32) :
    ofMagnitude x.isNegative x.magnitude = x := by
  obtain ⟨bits⟩ := x
  unfold ofMagnitude isNegative Binary32.magnitude
  rw [FloatFormat.signed_isNegative_magnitude bits.toNat_lt, UInt32.ofNat_toNat]

theorem magnitude_ofMagnitude {negative : Bool} {magnitude : Nat}
    (h : magnitude < 2 ^ FloatFormat.single.signPosition) :
    (ofMagnitude negative magnitude).magnitude = magnitude := by
  have hbits : (ofMagnitude negative magnitude).bits.toNat =
      FloatFormat.single.signed negative magnitude :=
    UInt32.toNat_ofNat_of_lt' (@FloatFormat.signed_lt .single negative _ h)
  unfold Binary32.magnitude
  rw [hbits, FloatFormat.magnitude_signed h]

theorem isFinite_iff {x : Binary32} :
    x.isFinite = true ↔ x.magnitude < FloatFormat.single.infinity :=
  decide_eq_true_iff

/-- A finite single has the value of a finite double. -/
theorem exists_double {magnitude : Nat} (h : magnitude < FloatFormat.single.infinity) :
    ∃ double, double < FloatFormat.double.infinity ∧
      FloatFormat.double.units double = FloatFormat.single.units magnitude * 2 ^ 925 := by
  have hwide : ∀ significand exponent, significand < 2 ^ 24 → exponent < 254 →
      ∃ double, double < FloatFormat.double.infinity ∧
        FloatFormat.double.units double = significand * 2 ^ exponent * 2 ^ 925 := by
    intro significand exponent hsignificand hexponent
    have hdigits : significand < 2 ^ (FloatFormat.double.fractionBits + 1) :=
      Nat.lt_trans hsignificand (by decide)
    have hrange : exponent + 925 + 1 < FloatFormat.double.topExponent := by
      change exponent + 925 + 1 < 2047
      omega
    obtain ⟨double, hfinite, hunits⟩ := FloatFormat.exists_units hdigits hrange
    exact ⟨double, hfinite, by rw [hunits, pow_add, Nat.mul_assoc]⟩
  have hbound : FloatFormat.single.infinity = 255 * 2 ^ 23 := rfl
  rcases FloatFormat.exists_parts .single magnitude with
    hlt | ⟨significand, exponent, hlow, hhigh, rfl⟩
  · have hdigits : magnitude < 2 ^ 23 := hlt
    have h := hwide magnitude 0 (by omega) (by omega)
    rwa [Nat.pow_zero, Nat.mul_one, ← FloatFormat.units_of_lt hlt] at h
  · have hexponent : exponent < 254 := by
      change exponent * 2 ^ 23 + significand < _ at h
      change 2 ^ 23 ≤ significand at hlow
      omega
    rw [FloatFormat.units_of_le hlow hhigh]
    exact hwide significand exponent hhigh hexponent

/-- A finite single is widened to the double of the same number. -/
theorem widen_spec {x : Binary32} (h : x.magnitude < FloatFormat.single.infinity) :
    x.widen.isNegative = x.isNegative ∧ x.widen.magnitude < FloatFormat.double.infinity ∧
      FloatFormat.double.units x.widen.magnitude =
        FloatFormat.single.units x.magnitude * 2 ^ 925 := by
  obtain ⟨magnitude, hfinite, hunits⟩ := exists_double h
  have hconvert : FloatFormat.double.convert .single x.magnitude = magnitude := by
    refine FloatFormat.convert_of_units h hfinite ?_
    have hlowest : FloatFormat.double.lowestExponent =
        925 + FloatFormat.single.lowestExponent := rfl
    rw [hunits, hlowest, pow_add, ← Nat.mul_assoc, Nat.mul_comm]
  have hlt : magnitude < 2 ^ FloatFormat.double.signPosition := Nat.lt_trans hfinite (by decide)
  rw [widen, hconvert, Binary64.isNegative_ofMagnitude hlt, Binary64.magnitude_ofMagnitude hlt]
  exact ⟨rfl, hfinite, hunits⟩

theorem standard_of_lt {x : Binary32} (h : x.magnitude < FloatFormat.single.infinity) :
    x.standard = x := by
  have hnan : ¬x.isNaN = true := fun hnan => Nat.lt_asymm h (of_decide_eq_true hnan)
  rw [standard, if_neg hnan]

/-- A single survives being widened and narrowed again, but for the sign and
the payload of a NaN. -/
theorem narrow_standard_widen (x : Binary32) : x.widen.standard.narrow = x.standard := by
  rcases Nat.lt_trichotomy x.magnitude FloatFormat.single.infinity with hlt | heq | hgt
  · obtain ⟨hsign, hfinite, hunits⟩ := widen_spec hlt
    have hlowest : FloatFormat.double.lowestExponent =
        925 + FloatFormat.single.lowestExponent := rfl
    have hnarrow : FloatFormat.single.convert .double x.widen.magnitude = x.magnitude := by
      refine FloatFormat.convert_of_units hfinite hlt ?_
      rw [hunits, hlowest, pow_add, Nat.mul_assoc, Nat.mul_comm]
    rw [Binary64.standard_of_isFinite (Binary64.isFinite_iff.mpr hfinite), standard_of_lt hlt,
      Binary64.narrow, hsign, hnarrow, ofMagnitude_isNegative_magnitude]
  · have hx := x.ofMagnitude_isNegative_magnitude
    rw [heq] at hx
    rw [← hx]
    cases x.isNegative <;> decide +kernel
  · have hconvert : FloatFormat.double.convert .single x.magnitude =
        FloatFormat.double.quietNaN := by
      unfold FloatFormat.convert
      rw [if_neg (Nat.not_lt.mpr (Nat.le_of_lt hgt)), if_neg (Nat.ne_of_gt hgt)]
    have hnan : x.isNaN = true := decide_eq_true hgt
    have hwide : x.widen.isNaN = true := by
      rw [Binary64.isNaN_iff, widen, hconvert, Binary64.magnitude_ofMagnitude (by decide)]
      decide
    rw [Binary64.standard, if_pos hwide, standard, if_pos hnan]
    rfl

end Binary32

end WireCodec
