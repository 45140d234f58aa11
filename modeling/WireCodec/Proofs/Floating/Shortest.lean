import Mathlib.Algebra.Order.Field.Power
import Mathlib.Data.Rat.Cast.Order
import Mathlib.Tactic.FieldSimp
import Mathlib.Tactic.Linarith
import Mathlib.Tactic.Positivity
import Mathlib.Tactic.Ring
import WireCodec.Proofs.Floating.Rounding

/-! # Shortest decimals are near

The decimal that is written for a number has at most eighteen digits and lies
in the interval of the numbers that round to it, or nearer to it than one part
in ten to the seventeenth.
-/

namespace WireCodec

theorem lt_pow_digitCount (n : Nat) : n < 10 ^ digitCount n := by
  induction n using Nat.strongRecOn with
  | ind n ih =>
      unfold digitCount
      split
      next h => simp [h]
      next h =>
        have hrest := ih (n / 10) (by omega)
        rw [pow_succ]
        omega

theorem pow_digitCount_le {n : Nat} (h : 0 < n) : 10 ^ digitCount n ≤ 10 * n := by
  induction n using Nat.strongRecOn with
  | ind n ih =>
      unfold digitCount
      rw [if_neg (Nat.ne_of_gt h), pow_succ]
      by_cases hsmall : n / 10 = 0
      · simp [hsmall, digitCount]
        omega
      · have hrest := ih (n / 10) (by omega) (by omega)
        omega

namespace Decimal

/-- The number that a decimal is. -/
def value (x : Decimal) : ℚ := x.digits * 10 ^ x.exponent

theorem toRatio_pos (x : Decimal) : 0 < x.toRatio.2 := by
  unfold toRatio
  split
  · exact Nat.one_pos
  · exact Nat.pow_pos (by decide)

theorem value_eq (x : Decimal) : x.value = x.toRatio.1 / x.toRatio.2 := by
  unfold value toRatio
  split
  next h =>
    obtain ⟨n, hn⟩ := Int.eq_ofNat_of_zero_le h
    simp [hn]
  next h =>
    obtain ⟨n, hn⟩ := Int.exists_eq_neg_ofNat (Int.le_of_lt (Int.not_le.mp h))
    simp [hn, div_eq_mul_inv]

theorem normalize_spec (x : Decimal) : x.normalize.value = x.value ∧
    x.normalize.digits ≤ x.digits ∧ (0 < x.digits → 0 < x.normalize.digits) ∧
      x.exponent ≤ x.normalize.exponent := by
  induction x using normalize.induct with
  | case1 x h ih =>
      obtain ⟨hvalue, hle, hpos, hexponent⟩ := ih
      dsimp only at hle hpos hexponent
      have hdigits : x.digits = 10 * (x.digits / 10) := by omega
      have hcast : (x.digits : ℚ) = 10 * ((x.digits / 10 : Nat) : ℚ) := by exact_mod_cast hdigits
      rw [normalize, if_pos h]
      refine ⟨hvalue.trans ?_, by omega, fun _ => hpos (by omega), by omega⟩
      unfold value
      rw [zpow_add_one₀ (by norm_num), hcast]
      ring
  | case2 x h =>
      rw [normalize, if_neg h]
      exact ⟨rfl, Nat.le_refl _, fun h => h, Int.le_refl _⟩

end Decimal

namespace RoundingInterval

variable {interval : RoundingInterval}

/-- The number in the middle of an interval. -/
def center (interval : RoundingInterval) : ℚ := interval.value / interval.den

theorem Covers.bounds (hden : 0 < interval.den) {x : Decimal}
    (h : interval.Covers x.toRatio.1 x.toRatio.2) :
    (interval.lower : ℚ) / interval.den ≤ x.value ∧ x.value ≤ interval.upper / interval.den := by
  have hratio := x.toRatio_pos
  have hlow : (interval.lower : ℚ) * x.toRatio.2 ≤ x.toRatio.1 * interval.den := by
    exact_mod_cast h.low
  have hhigh : (x.toRatio.1 : ℚ) * interval.den ≤ interval.upper * x.toRatio.2 := by
    exact_mod_cast h.high
  rw [x.value_eq]
  constructor
  · rw [div_le_div_iff₀ (by exact_mod_cast hden) (by exact_mod_cast hratio)]
    exact hlow
  · rw [div_le_div_iff₀ (by exact_mod_cast hratio) (by exact_mod_cast hden)]
    exact hhigh

/-- An interval covers a decimal or none of the same value. -/
theorem Covers.of_value_eq {x y : Decimal} (hvalue : x.value = y.value)
    (h : interval.Covers x.toRatio.1 x.toRatio.2) : interval.Covers y.toRatio.1 y.toRatio.2 := by
  have hx : (x.toRatio.2 : ℚ) ≠ 0 := by exact_mod_cast x.toRatio_pos.ne'
  have hy : (y.toRatio.2 : ℚ) ≠ 0 := by exact_mod_cast y.toRatio_pos.ne'
  rw [x.value_eq, y.value_eq, div_eq_div_iff hx hy] at hvalue
  exact h.congr x.toRatio_pos y.toRatio_pos (by exact_mod_cast hvalue)

/-- The digits down to a place are the center, rounded down. -/
theorem cutAt_bounds (hden : 0 < interval.den) (place : Int) :
    ((interval.cutAt place).1 : ℚ) * 10 ^ place ≤ interval.center ∧
      interval.center < ((interval.cutAt place).1 + 1 : ℚ) * 10 ^ place := by
  have hfloor : ∀ num den : Nat, 0 < den → ((num / den : Nat) : ℚ) ≤ (num : ℚ) / den ∧
      (num : ℚ) / den < ((num / den : Nat) : ℚ) + 1 := by
    intro num den hpos
    have hpos' : (0 : ℚ) < den := by exact_mod_cast hpos
    constructor
    · rw [le_div_iff₀ hpos']
      exact_mod_cast Nat.div_mul_le_self num den
    · rw [div_lt_iff₀ hpos']
      exact_mod_cast Nat.lt_mul_of_div_lt (Nat.lt_succ_self _) hpos
  have hcut : ∃ num den : Nat, 0 < den ∧ (interval.cutAt place).1 = num / den ∧
      interval.center = (num : ℚ) / den * 10 ^ place := by
    have hden' : (interval.den : ℚ) ≠ 0 := by exact_mod_cast Nat.ne_of_gt hden
    unfold cutAt center
    by_cases h : 0 ≤ place
    · obtain ⟨n, rfl⟩ := Int.eq_ofNat_of_zero_le h
      simp only [h, if_true]
      refine ⟨_, _, Nat.mul_pos hden (Nat.pow_pos (by decide)), rfl, ?_⟩
      simp only [Int.toNat_natCast, zpow_natCast]
      push_cast
      field_simp
    · obtain ⟨n, rfl⟩ := Int.exists_eq_neg_ofNat (Int.le_of_lt (Int.not_le.mp h))
      simp only [h, if_false]
      refine ⟨_, _, hden, rfl, ?_⟩
      simp only [pow_eq, neg_neg, Int.toNat_natCast, zpow_neg, zpow_natCast]
      push_cast
      field_simp
  obtain ⟨num, den, hpos, hdigits, hcenter⟩ := hcut
  obtain ⟨hle, hlt⟩ := hfloor num den hpos
  have hscale : (0 : ℚ) < 10 ^ place := by positivity
  rw [hdigits, hcenter]
  exact ⟨mul_le_mul_of_nonneg_right hle hscale.le, mul_lt_mul_of_pos_right hlt hscale⟩

/-- A quotient is as large as the number of its digits says, behind any shift. -/
theorem quotient_bounds {value den : Nat} (hden : 0 < den) {shift : Nat}
    (hlarge : den ≤ value * Nat.pow 10 shift) :
    (10 : ℚ) ^ ((digitCount (value * Nat.pow 10 shift / den) : Int) - (shift + 1)) ≤ value / den ∧
      (value : ℚ) / den < 10 ^ ((digitCount (value * Nat.pow 10 shift / den) : Int) - shift) := by
  rw [pow_eq] at hlarge ⊢
  have hden' : (0 : ℚ) < den := by exact_mod_cast hden
  have hshift : (0 : ℚ) < 10 ^ shift := by positivity
  generalize hquotient : value * 10 ^ shift / den = quotient
  have hpos : 0 < quotient := hquotient ▸ Nat.div_pos hlarge hden
  have hle : (quotient : ℚ) * den ≤ value * 10 ^ shift := by
    exact_mod_cast hquotient ▸ Nat.div_mul_le_self (value * 10 ^ shift) den
  have hlt : (value : ℚ) * 10 ^ shift < (quotient + 1) * den := by
    exact_mod_cast hquotient ▸ Nat.lt_mul_of_div_lt (Nat.lt_succ_self _) hden
  have hlow : (10 : ℚ) ^ digitCount quotient ≤ 10 * quotient := by
    exact_mod_cast pow_digitCount_le hpos
  have hhigh : (quotient : ℚ) + 1 ≤ 10 ^ digitCount quotient := by
    exact_mod_cast lt_pow_digitCount quotient
  have hten : (10 : ℚ) ≠ 0 := by norm_num
  constructor
  · rw [zpow_sub₀ hten, zpow_add_one₀ hten, zpow_natCast, zpow_natCast,
      div_le_div_iff₀ (by positivity) hden']
    nlinarith
  · rw [zpow_sub₀ hten, zpow_natCast, zpow_natCast, div_lt_div_iff₀ hden' hshift]
    exact lt_of_lt_of_le hlt (mul_le_mul_of_nonneg_right hhigh hden'.le)

/-- The leading digit of the center is at the leading place. -/
theorem leadingPlace_bounds (hden : 0 < interval.den)
    (hlarge : interval.den ≤ interval.value * Nat.pow 10 400) :
    (10 : ℚ) ^ interval.leadingPlace ≤ interval.center ∧
      interval.center < 10 ^ (interval.leadingPlace + 1) := by
  have hplaces : (401 : Int) = ((400 : Nat) : Int) + 1 := rfl
  unfold leadingPlace
  rw [hplaces]
  generalize 400 = shift at hlarge ⊢
  have hbounds := quotient_bounds hden hlarge
  generalize (digitCount (interval.value * Nat.pow 10 shift / interval.den) : Int) = count
    at hbounds ⊢
  have hlast : count - (shift + 1) + 1 = count - shift := by ring
  rw [hlast]
  exact hbounds

/-- What is known of the decimal that is found for an interval: it lies in the
interval, or is its center cut off at the eighteenth digit. -/
structure Found (interval : RoundingInterval) (x : Decimal) : Prop where
  digits_le : x.digits ≤ 10 ^ 18
  place_le : interval.leadingPlace - 17 ≤ x.exponent
  near : interval.Covers x.toRatio.1 x.toRatio.2 ∨
    (x.value ≤ interval.center ∧ interval.center < x.value + 10 ^ (interval.leadingPlace - 17))

section Search

variable (hden : 0 < interval.den) (hlarge : interval.den ≤ interval.value * Nat.pow 10 400)
  {place : Int}
include hden hlarge

/-- Down to the eighteenth place there are at most eighteen digits. -/
theorem cutAt_lt (hplace : interval.leadingPlace - 17 ≤ place) :
    (interval.cutAt place).1 < 10 ^ 18 := by
  obtain ⟨hcut, _⟩ := cutAt_bounds hden place
  obtain ⟨_, hcenter⟩ := leadingPlace_bounds hden hlarge
  have hscale : (0 : ℚ) < 10 ^ place := by positivity
  have hplaces : (10 : ℚ) ^ (interval.leadingPlace + 1) ≤ 10 ^ 18 * 10 ^ place := by
    rw [← zpow_natCast, ← zpow_add₀ (by norm_num)]
    exact zpow_le_zpow_right₀ (by norm_num) (by omega)
  have hlt : ((interval.cutAt place).1 : ℚ) < 10 ^ 18 :=
    lt_of_mul_lt_mul_right (lt_of_le_of_lt hcut (lt_of_lt_of_le hcenter hplaces)) hscale.le
  exact_mod_cast hlt

theorem nearestAt?_found (hplace : interval.leadingPlace - 17 ≤ place) {x : Decimal}
    (h : interval.nearestAt? place = some x) : interval.Found x := by
  have hcut := cutAt_lt hden hlarge hplace
  have hchoice : ∀ first second : Decimal, (if interval.contains first then some first
      else if interval.contains second then some second else none) = some x →
      interval.contains x = true ∧ (x = first ∨ x = second) := by
    intro first second hx
    split at hx
    next hfirst =>
      cases hx
      exact ⟨hfirst, .inl rfl⟩
    next =>
      split at hx
      next hsecond =>
        cases hx
        exact ⟨hsecond, .inr rfl⟩
      next => cases hx
  have hfound : interval.contains x = true ∧ x.exponent = place ∧
      x.digits ≤ (interval.cutAt place).1 + 1 := by
    unfold nearestAt? at h
    generalize interval.cutAt place = cut at h ⊢
    obtain ⟨digits, up⟩ := cut
    cases up with
    | false =>
        obtain ⟨hcontains, rfl | rfl⟩ := hchoice _ _ h
        · exact ⟨hcontains, rfl, Nat.le_succ digits⟩
        · exact ⟨hcontains, rfl, Nat.le_refl _⟩
    | true =>
        obtain ⟨hcontains, rfl | rfl⟩ := hchoice _ _ h
        · exact ⟨hcontains, rfl, Nat.le_refl _⟩
        · exact ⟨hcontains, rfl, Nat.le_succ digits⟩
  obtain ⟨hcontains, rfl, hdigits⟩ := hfound
  exact ⟨by omega, hplace, .inl (covers_of_contains hcontains)⟩

theorem search_found {count : Nat} (hplace : place = interval.leadingPlace - 17 + count) :
    interval.Found (interval.search place count) := by
  induction count generalizing place with
  | zero =>
      obtain ⟨hle, hlt⟩ := cutAt_bounds hden place
      have hcut := cutAt_lt hden hlarge (by omega : interval.leadingPlace - 17 ≤ place)
      refine ⟨Nat.le_of_lt hcut, by simp [search]; omega, .inr ⟨hle, ?_⟩⟩
      simp only [Nat.cast_zero, add_zero] at hplace
      unfold search Decimal.value
      rw [← hplace]
      linarith
  | succ count ih =>
      unfold search
      split
      next x h => exact nearestAt?_found hden hlarge (by omega) h
      next => exact ih (by omega)

end Search

theorem Found.normalize {x : Decimal} (h : interval.Found x) : interval.Found x.normalize := by
  obtain ⟨hdigits, hplace, hnear⟩ := h
  obtain ⟨hvalue, hle, -, hexponent⟩ := x.normalize_spec
  refine ⟨hle.trans hdigits, hplace.trans hexponent, ?_⟩
  rcases hnear with hcovers | hcut
  · exact .inl (hcovers.of_value_eq hvalue.symm)
  · exact .inr (hvalue.symm ▸ hcut)

end RoundingInterval

/-! ## Magnitudes -/

namespace FloatFormat

/-- The number that a finite magnitude is. -/
def value (format : FloatFormat) (magnitude : Nat) : ℚ :=
  format.units magnitude / 2 ^ format.lowestExponent

variable {format : FloatFormat} {magnitude : Nat}

theorem value_eq :
    format.value magnitude = format.units magnitude / ((2 ^ format.lowestExponent : Nat) : ℚ) := by
  rw [value, Nat.cast_pow, Nat.cast_ofNat]

theorem value_pos (h : 0 < format.units magnitude) : 0 < format.value magnitude :=
  div_pos (by exact_mod_cast h) (by positivity)

theorem value_nonneg (magnitude : Nat) : 0 ≤ format.value magnitude :=
  div_nonneg (Nat.cast_nonneg _) (by positivity)

theorem units_pos (h : 0 < magnitude) : 0 < format.units magnitude := by
  obtain ⟨significand, exponent, -, rfl, hlt, hfull⟩ := exists_decompose format magnitude
  rw [units_of_parts hfull (Nat.le_of_lt hlt)]
  refine Nat.mul_pos (Nat.pos_of_ne_zero ?_) (Nat.two_pow_pos exponent)
  rintro rfl
  have hpos := Nat.two_pow_pos format.fractionBits
  obtain rfl := hfull.resolve_right (by omega)
  simp at h

/-- The unit of the last place of a magnitude. -/
def last (format : FloatFormat) (magnitude : Nat) : Nat := 2 ^ (format.decompose magnitude).2

theorem last_le (h : 2 ^ format.fractionBits ≤ magnitude) :
    2 ^ format.fractionBits * format.last magnitude ≤ format.units magnitude := by
  obtain ⟨significand, exponent, hdecompose, hmagnitude, -, hfull⟩ :=
    exists_decompose format magnitude
  unfold last units
  rw [hdecompose]
  refine Nat.mul_le_mul_right _ ?_
  rcases hfull with rfl | hfull
  · rwa [hmagnitude, Nat.zero_mul, Nat.zero_add] at h
  · exact hfull

theorem units_lt_last (format : FloatFormat) (magnitude : Nat) :
    format.units magnitude < 2 ^ (format.fractionBits + 1) * format.last magnitude := by
  obtain ⟨significand, exponent, hdecompose, -, hlt, -⟩ := exists_decompose format magnitude
  unfold last units
  rw [hdecompose]
  exact Nat.mul_lt_mul_of_pos_right hlt (Nat.two_pow_pos _)

theorem ofMagnitude_den :
    (RoundingInterval.ofMagnitude format magnitude).den = 4 * 2 ^ format.lowestExponent := rfl

theorem ofMagnitude_value :
    (RoundingInterval.ofMagnitude format magnitude).value = 4 * format.units magnitude :=
  Nat.mul_assoc ..

theorem ofMagnitude_upper : (RoundingInterval.ofMagnitude format magnitude).upper =
    4 * format.units magnitude + 2 * format.last magnitude := by
  unfold units last
  rw [← Nat.mul_assoc, ← Nat.add_mul]
  rfl

theorem le_ofMagnitude_lower : 4 * format.units magnitude ≤
    (RoundingInterval.ofMagnitude format magnitude).lower + 2 * format.last magnitude := by
  unfold units last RoundingInterval.ofMagnitude
  simp only [pow_eq]
  rw [← Nat.mul_assoc, ← Nat.add_mul]
  refine Nat.mul_le_mul_right _ ?_
  split <;> omega

theorem ofMagnitude_lower_pos (h : 0 < magnitude) :
    0 < (RoundingInterval.ofMagnitude format magnitude).lower := by
  have hsignificand := Nat.pos_of_mul_pos_right (@units_pos format _ h)
  unfold RoundingInterval.ofMagnitude
  refine Nat.mul_pos ?_ (Nat.two_pow_pos _)
  split <;> omega

theorem ofMagnitude_lower_le (h : 0 < magnitude) :
    (RoundingInterval.ofMagnitude format magnitude).lower + format.last magnitude ≤
      4 * format.units magnitude := by
  have hsignificand := Nat.pos_of_mul_pos_right (@units_pos format _ h)
  unfold units last RoundingInterval.ofMagnitude
  simp only [pow_eq]
  rw [← Nat.mul_assoc, ← Nat.succ_mul]
  refine Nat.mul_le_mul_right _ ?_
  split <;> omega

theorem center_ofMagnitude :
    (RoundingInterval.ofMagnitude format magnitude).center = format.value magnitude := by
  unfold RoundingInterval.center value
  rw [ofMagnitude_value, ofMagnitude_den]
  push_cast
  exact mul_div_mul_left _ _ (by norm_num)

/-- What is nearer to a number than an eighth of the unit of its last place is
in the rounding interval. -/
theorem covers_of_near {num den : Nat} (hpos : 0 < magnitude) (hden : 0 < den)
    (hlow : format.value magnitude * (1 - 1 / 2 ^ (format.fractionBits + 3)) < (num : ℚ) / den)
    (hhigh : (num : ℚ) / den < format.value magnitude * (1 + 1 / 2 ^ (format.fractionBits + 3))) :
    (RoundingInterval.ofMagnitude format magnitude).Covers num den := by
  have hden' : (0 : ℚ) < den := by exact_mod_cast hden
  have hscale : (0 : ℚ) < 2 ^ format.lowestExponent := by positivity
  have hbits : (2 : ℚ) ^ (format.fractionBits + 3) = 2 ^ (format.fractionBits + 1) * 4 := by
    rw [pow_add, pow_add]
    ring
  have hlast : (format.units magnitude : ℚ) < 2 ^ (format.fractionBits + 1) *
      format.last magnitude := by exact_mod_cast format.units_lt_last magnitude
  have hlower : ((RoundingInterval.ofMagnitude format magnitude).lower : ℚ) +
      format.last magnitude ≤ 4 * format.units magnitude := by
    exact_mod_cast ofMagnitude_lower_le hpos
  have hupper : ((RoundingInterval.ofMagnitude format magnitude).upper : ℚ) =
      4 * format.units magnitude + 2 * format.last magnitude := by
    exact_mod_cast ofMagnitude_upper
  have hpart : (format.units magnitude : ℚ) / 2 ^ (format.fractionBits + 1) <
      format.last magnitude := (div_lt_iff₀' (by positivity)).mpr hlast
  have hscaled : ∀ part : ℚ, format.value magnitude * (1 + part / 2 ^ (format.fractionBits + 3)) =
      (format.units magnitude + part * (format.units magnitude / 2 ^ (format.fractionBits + 1)) / 4)
        / 2 ^ format.lowestExponent := by
    intro part
    rw [hbits, value]
    field_simp
  have hbelow : (RoundingInterval.ofMagnitude format magnitude).lower * den <
      num * (RoundingInterval.ofMagnitude format magnitude).den := by
    have hminus := hscaled (-1)
    rw [neg_div, ← sub_eq_add_neg] at hminus
    rw [hminus, div_lt_div_iff₀ hscale hden'] at hlow
    rw [ofMagnitude_den]
    have hcast : ((RoundingInterval.ofMagnitude format magnitude).lower : ℚ) * den <
        num * (4 * 2 ^ format.lowestExponent) := by nlinarith
    exact_mod_cast hcast
  have habove : num * (RoundingInterval.ofMagnitude format magnitude).den <
      (RoundingInterval.ofMagnitude format magnitude).upper * den := by
    rw [hscaled 1, div_lt_div_iff₀ hden' hscale] at hhigh
    rw [ofMagnitude_den]
    have hcast : (num : ℚ) * (4 * 2 ^ format.lowestExponent) <
        (RoundingInterval.ofMagnitude format magnitude).upper * den := by
      rw [hupper]
      nlinarith
    exact_mod_cast hcast
  exact ⟨hbelow.le, habove.le, .inr ⟨hbelow, habove⟩⟩

/-! ## Doubles -/

section Doubles

variable (hpos : 0 < magnitude)
include hpos

theorem ofMagnitude_large : (RoundingInterval.ofMagnitude double magnitude).den ≤
    (RoundingInterval.ofMagnitude double magnitude).value * Nat.pow 10 400 := by
  have hscale : 2 ^ double.lowestExponent ≤ Nat.pow 10 400 := by decide +kernel
  rw [ofMagnitude_value, ofMagnitude_den, Nat.mul_assoc]
  refine Nat.mul_le_mul_left 4 (Nat.le_trans hscale ?_)
  exact Nat.le_mul_of_pos_left _ (units_pos hpos)

theorem shortest_found :
    (RoundingInterval.ofMagnitude double magnitude).Found (double.shortest magnitude) :=
  (RoundingInterval.search_found (Nat.mul_pos (by decide) (Nat.two_pow_pos _))
    (ofMagnitude_large hpos) (by omega)).normalize

/-- The shortest decimal is in the rounding interval. -/
theorem shortest_covers : (RoundingInterval.ofMagnitude double magnitude).Covers
    (double.shortest magnitude).toRatio.1 (double.shortest magnitude).toRatio.2 := by
  rcases (shortest_found hpos).near with hcovers | ⟨hlow, hhigh⟩
  · exact hcovers
  · have hleading := (RoundingInterval.leadingPlace_bounds (Nat.mul_pos (by decide)
      (Nat.two_pow_pos _)) (ofMagnitude_large hpos)).1
    have hvalue := value_pos (@units_pos double _ hpos)
    have hbits : double.fractionBits + 3 = 55 := rfl
    rw [zpow_sub₀ (by norm_num)] at hhigh
    rw [center_ofMagnitude] at hlow hhigh hleading
    refine covers_of_near hpos (Decimal.toRatio_pos _) ?_ ?_
    · rw [← Decimal.value_eq, hbits]
      norm_num at hhigh ⊢
      linarith
    · rw [← Decimal.value_eq, hbits]
      norm_num
      linarith

theorem shortest_digits_pos : 0 < (double.shortest magnitude).digits := by
  have hlower : (0 : ℚ) < (RoundingInterval.ofMagnitude double magnitude).lower := by
    exact_mod_cast ofMagnitude_lower_pos hpos
  have hvalue := lt_of_lt_of_le (div_pos hlower (by rw [ofMagnitude_den]; positivity))
    ((shortest_covers hpos).bounds (Nat.mul_pos (by decide) (Nat.two_pow_pos _))).1
  refine Nat.pos_of_ne_zero fun hzero => ?_
  rw [Decimal.value, hzero, Nat.cast_zero, zero_mul] at hvalue
  exact lt_irrefl _ hvalue

/-- The shortest decimal of a normal double is as near to it as the last place
of its significand. -/
theorem shortest_near (hnormal : 2 ^ double.fractionBits ≤ magnitude) :
    double.value magnitude * (1 - 1 / 2 ^ 53) ≤ (double.shortest magnitude).value ∧
      (double.shortest magnitude).value ≤ double.value magnitude * (1 + 1 / 2 ^ 53) := by
  have hden : (0 : ℚ) < 2 ^ double.lowestExponent := by positivity
  obtain ⟨hlow, hhigh⟩ :=
    (shortest_covers hpos).bounds (Nat.mul_pos (by decide) (Nat.two_pow_pos _))
  have hlast : (2 : ℚ) ^ 52 * double.last magnitude ≤ double.units magnitude := by
    exact_mod_cast last_le hnormal
  have hlower : 4 * (double.units magnitude : ℚ) ≤
      (RoundingInterval.ofMagnitude double magnitude).lower + 2 * double.last magnitude := by
    exact_mod_cast le_ofMagnitude_lower
  rw [ofMagnitude_den] at hlow hhigh
  rw [ofMagnitude_upper] at hhigh
  push_cast at hlow hhigh
  unfold value
  constructor
  · refine le_trans ?_ hlow
    rw [div_mul_eq_mul_div, div_le_div_iff₀ hden (by positivity)]
    nlinarith
  · refine le_trans hhigh ?_
    rw [div_mul_eq_mul_div, div_le_div_iff₀ (by positivity) hden]
    nlinarith

end Doubles

theorem last_le_of_lt (hfinite : magnitude < double.infinity) :
    double.last magnitude ≤ 2 ^ 2045 := by
  obtain ⟨significand, exponent, hdecompose, hmagnitude, -, hfull⟩ :=
    exists_decompose double magnitude
  have hexponent : exponent ≤ 2045 := by
    change magnitude = exponent * 2 ^ 52 + significand at hmagnitude
    change exponent = 0 ∨ 2 ^ 52 ≤ significand at hfull
    change magnitude < 2047 * 2 ^ 52 at hfinite
    omega
  unfold last
  rw [hdecompose]
  generalize 2045 = top at hexponent ⊢
  exact Nat.pow_le_pow_right Nat.two_pos hexponent

/-- The shortest decimal of the greatest finite double. -/
def topDecimal : Decimal := ⟨17976931348623157, 292⟩

theorem shortest_top : double.shortest (double.infinity - 1) = topDecimal := by decide +kernel

/-- No shortest decimal is greater than that of the greatest double. -/
theorem shortest_le_top (hpos : 0 < magnitude) (hfinite : magnitude < double.infinity) :
    (double.shortest magnitude).value ≤ topDecimal.value := by
  obtain rfl | hlt : magnitude = double.infinity - 1 ∨ magnitude ≤ double.infinity - 2 := by omega
  · rw [shortest_top]
  · have hupper : (RoundingInterval.ofMagnitude double magnitude).upper ≤
        topDecimal.toRatio.1 * (RoundingInterval.ofMagnitude double magnitude).den := by
      have hunits : double.units magnitude ≤ double.units (double.infinity - 2) := units_mono hlt
      have hlast := last_le_of_lt hfinite
      have htop : 4 * double.units (double.infinity - 2) + 2 * 2 ^ 2045 ≤
          topDecimal.toRatio.1 * (4 * 2 ^ double.lowestExponent) := by decide +kernel
      rw [ofMagnitude_upper, ofMagnitude_den]
      omega
    have hden : (0 : ℚ) < (RoundingInterval.ofMagnitude double magnitude).den := by
      rw [ofMagnitude_den]
      push_cast
      positivity
    have hbound : ((RoundingInterval.ofMagnitude double magnitude).upper : ℚ) /
        (RoundingInterval.ofMagnitude double magnitude).den ≤ topDecimal.value := by
      have hone : topDecimal.toRatio.2 = 1 := rfl
      rw [Decimal.value_eq, hone, Nat.cast_one, div_one, div_le_iff₀ hden]
      exact_mod_cast hupper
    exact le_trans ((shortest_covers hpos).bounds (by exact_mod_cast hden)).2 hbound

end FloatFormat

end WireCodec
