import WireCodec.Proofs.Floating.Reread

/-! # Singles that are read again

A double is near the double that its text is read as, unless it is very small
or very large. The roundings between the two are much finer than a single is,
so that a single comes back as it was.
-/

namespace WireCodec

open FloatFormat (double single)

/-! ## Factors -/

/-- Two numbers that are no more roundings to double precision apart than
given: their quotient is a product of as many factors that are next to one. -/
structure Close (count : Nat) (a b : ℚ) : Prop where
  le : b ≤ a * (1 + 1 / 2 ^ 52) ^ count
  ge : a ≤ b * (1 + 1 / 2 ^ 52) ^ count

namespace Close

variable {m n : Nat} {a b c d : ℚ}

theorem refl (count : Nat) (ha : 0 ≤ a) : Close count a a := by
  have hle : a ≤ a * (1 + 1 / 2 ^ 52) ^ count :=
    le_mul_of_one_le_right ha (one_le_pow₀ (by norm_num))
  exact ⟨hle, hle⟩

theorem pos_right (h : Close m a b) (ha : 0 < a) : 0 < b := by
  have hpos := lt_of_lt_of_le ha h.ge
  exact (pos_iff_pos_of_mul_pos hpos).mpr (by positivity)

theorem trans (h : Close m a b) (h' : Close n b c) : Close (m + n) a c := by
  have hm : (0 : ℚ) ≤ (1 + 1 / 2 ^ 52) ^ m := by positivity
  have hn : (0 : ℚ) ≤ (1 + 1 / 2 ^ 52) ^ n := by positivity
  constructor
  · calc c ≤ b * (1 + 1 / 2 ^ 52) ^ n := h'.le
      _ ≤ a * (1 + 1 / 2 ^ 52) ^ m * (1 + 1 / 2 ^ 52) ^ n := mul_le_mul_of_nonneg_right h.le hn
      _ = a * (1 + 1 / 2 ^ 52) ^ (m + n) := by rw [pow_add, mul_assoc]
  · calc a ≤ b * (1 + 1 / 2 ^ 52) ^ m := h.ge
      _ ≤ c * (1 + 1 / 2 ^ 52) ^ n * (1 + 1 / 2 ^ 52) ^ m := mul_le_mul_of_nonneg_right h'.ge hm
      _ = c * (1 + 1 / 2 ^ 52) ^ (m + n) := by rw [pow_add]; ring

theorem mul (h : Close m a b) (h' : Close n c d) (ha : 0 < a) (hc : 0 < c) :
    Close (m + n) (a * c) (b * d) := by
  have hb := h.pos_right ha
  have hd := h'.pos_right hc
  constructor
  · calc b * d ≤ a * (1 + 1 / 2 ^ 52) ^ m * (c * (1 + 1 / 2 ^ 52) ^ n) :=
          mul_le_mul h.le h'.le hd.le (by positivity)
      _ = a * c * (1 + 1 / 2 ^ 52) ^ (m + n) := by rw [pow_add]; ring
  · calc a * c ≤ b * (1 + 1 / 2 ^ 52) ^ m * (d * (1 + 1 / 2 ^ 52) ^ n) :=
          mul_le_mul h.ge h'.ge hc.le (by positivity)
      _ = b * d * (1 + 1 / 2 ^ 52) ^ (m + n) := by rw [pow_add]; ring

theorem inv (h : Close m a b) (ha : 0 < a) : Close m a⁻¹ b⁻¹ := by
  have hb := h.pos_right ha
  constructor
  · rw [← div_eq_inv_mul, le_div_iff₀ ha, inv_mul_le_iff₀ hb]
    exact h.ge
  · rw [← div_eq_inv_mul, le_div_iff₀ hb, inv_mul_le_iff₀ ha]
    exact h.le

theorem div (h : Close m a b) (h' : Close n c d) (ha : 0 < a) (hc : 0 < c) :
    Close (m + n) (a / c) (b / d) := by
  rw [div_eq_mul_inv, div_eq_mul_inv]
  exact h.mul (h'.inv hc) ha (inv_pos.mpr hc)

/-- A relative error of half a unit of the last place. -/
theorem of_near (ha : 0 ≤ a) (hlow : a * (1 - 1 / 2 ^ 53) ≤ b) (hhigh : b ≤ a * (1 + 1 / 2 ^ 53)) :
    Close 1 a b := by
  constructor
  · nlinarith
  · nlinarith

end Close

theorem close_of_bounds {num den units scale : Nat} (hden : 0 < den) (hscale : 0 < scale)
    (hbelow : 2 ^ 53 * (den * units) ≤ 2 ^ 53 * (num * scale) + num * scale)
    (habove : 2 ^ 53 * (num * scale) ≤ 2 ^ 53 * (den * units) + num * scale) :
    Close 1 ((num : ℚ) / den) (units / scale) := by
  have hden' : (0 : ℚ) < den := by exact_mod_cast hden
  have hscale' : (0 : ℚ) < scale := by exact_mod_cast hscale
  have hbelow' : (2 : ℚ) ^ 53 * (den * units) ≤ 2 ^ 53 * (num * scale) + num * scale := by
    exact_mod_cast hbelow
  have habove' : (2 : ℚ) ^ 53 * (num * scale) ≤ 2 ^ 53 * (den * units) + num * scale := by
    exact_mod_cast habove
  refine Close.of_near (by positivity) ?_ ?_
  · rw [div_mul_eq_mul_div, div_le_div_iff₀ hden' hscale']
    linarith
  · rw [div_mul_eq_mul_div, div_le_div_iff₀ hscale' hden']
    linarith

/-! ## Roundings -/

/-- Numbers far from the ends of the range of doubles. -/
def Middling (a : ℚ) : Prop := 1 / 2 ^ 250 ≤ a ∧ a ≤ 2 ^ 250

theorem round_lt_infinity {num den : Nat} (hden : 0 < den) (h : num ≤ den * 2 ^ 250) :
    double.round num den < double.infinity := by
  have htop : double.round (den * 2 ^ 250) den = 1273 * 2 ^ 52 := by
    refine FloatFormat.round_of_units hden (by decide) ?_
    have hunits : double.units (1273 * 2 ^ 52) = 2 ^ 250 * 2 ^ double.lowestExponent := by
      decide +kernel
    rw [hunits, Nat.mul_assoc]
  refine Nat.lt_of_le_of_lt (FloatFormat.round_mono hden h) ?_
  rw [htop]
  decide +kernel

/-- Rounding a number in the middle of the range moves it by one rounding. -/
theorem close_round {num den : Nat} (hden : 0 < den) (h : Middling ((num : ℚ) / den)) :
    double.round num den < double.infinity ∧
      Close 1 ((num : ℚ) / den) (double.value (double.round num den)) := by
  have hden' : (0 : ℚ) < den := by exact_mod_cast hden
  have hlow : den ≤ num * 2 ^ 250 := by
    have hle := h.1
    rw [div_le_div_iff₀ (by positivity) hden', one_mul] at hle
    exact_mod_cast hle
  have hhigh : num ≤ den * 2 ^ 250 := by
    have hle := h.2
    rw [div_le_iff₀ hden', mul_comm] at hle
    exact_mod_cast hle
  have hfinite := round_lt_infinity hden hhigh
  refine ⟨hfinite, ?_⟩
  obtain ⟨exponent, hat⟩ := @FloatFormat.exists_roundsAt double den hden num
  obtain ⟨hbelow, habove⟩ := hat.near hden hfinite
  obtain ⟨rest, hexponent, hrest⟩ : ∃ rest, double.lowestExponent = 250 + rest ∧ 52 ≤ rest :=
    ⟨824, rfl, by decide⟩
  -- half a unit of the last place is a small part of the number
  have hlast : 2 ^ 52 * (den * 2 ^ exponent) ≤ num * 2 ^ double.lowestExponent := by
    rcases hat.low with rfl | hat
    · calc 2 ^ 52 * (den * 2 ^ 0) = den * 2 ^ 52 := by ring
        _ ≤ num * 2 ^ 250 * 2 ^ rest :=
          Nat.mul_le_mul hlow (Nat.pow_le_pow_right Nat.two_pos hrest)
        _ = num * 2 ^ double.lowestExponent := by rw [hexponent, Nat.pow_add, Nat.mul_assoc]
    · calc 2 ^ 52 * (den * 2 ^ exponent) = den * 2 ^ (double.fractionBits + exponent) := by
            change _ = den * 2 ^ (52 + exponent)
            ring
        _ ≤ num * 2 ^ double.lowestExponent := hat
  rw [FloatFormat.value_eq]
  exact close_of_bounds hden (Nat.two_pow_pos _) (by omega) (by omega)

theorem Close.middling {count : Nat} {a b : ℚ} (h : Close count a b) (hcount : count ≤ 4)
    (hlow : 1 / 2 ^ 200 ≤ a) (hhigh : a ≤ 2 ^ 200) : Middling b := by
  have hfactor : (1 + 1 / 2 ^ 52 : ℚ) ^ count ≤ 2 := by
    refine le_trans (pow_le_pow_right₀ (by norm_num) hcount) ?_
    norm_num
  have ha : 0 < a := lt_of_lt_of_le (by positivity) hlow
  have hb := h.pos_right ha
  have hbelow : a ≤ b * 2 := le_trans h.ge (mul_le_mul_of_nonneg_left hfactor hb.le)
  have habove : b ≤ a * 2 := le_trans h.le (mul_le_mul_of_nonneg_left hfactor ha.le)
  constructor
  · have hends : (1 : ℚ) / 2 ^ 250 * 2 ≤ 1 / 2 ^ 200 := by norm_num
    linarith
  · have hends : (2 : ℚ) ^ 200 * 2 ≤ 2 ^ 250 := by norm_num
    linarith

namespace FloatFormat

variable {format : FloatFormat} {magnitude factor : Nat}

/-- A product is rounded from the product of the numbers. -/
theorem exists_mul : ∃ num den, 0 < den ∧ format.mul magnitude factor = format.round num den ∧
    (num : ℚ) / den = format.value magnitude * format.value factor := by
  refine ⟨_, _, Nat.mul_pos (Nat.two_pow_pos _) (Nat.two_pow_pos _), rfl, ?_⟩
  rw [value_eq, value_eq, div_mul_div_comm, ← Nat.cast_mul, ← Nat.cast_mul]
  rfl

/-- A quotient is rounded from the quotient of the numbers. -/
theorem exists_div (h : 0 < format.value factor) : ∃ num den, 0 < den ∧
    format.div magnitude factor = format.round num den ∧
      (num : ℚ) / den = format.value magnitude / format.value factor := by
  have hfactor : 0 < format.units factor := by
    have hcast := (div_pos_iff_of_pos_right (by positivity)).mp h
    exact_mod_cast hcast
  refine ⟨_, _, Nat.mul_pos (Nat.two_pow_pos _) hfactor, rfl, ?_⟩
  rw [value_eq, value_eq, div_div_div_eq, ← Nat.cast_mul, ← Nat.cast_mul]
  rfl

end FloatFormat

section Products

variable {m n magnitude factor : Nat} {a b : ℚ} (h : Close m a (double.value magnitude))
  (h' : Close n b (double.value factor)) (ha : 0 < a) (hb : 0 < b) (hcount : m + n ≤ 4)
include h h' ha hb hcount

/-- A rounded product of rounded factors. -/
theorem close_mul (hlow : 1 / 2 ^ 200 ≤ a * b) (hhigh : a * b ≤ 2 ^ 200) :
    double.mul magnitude factor < double.infinity ∧
      Close (m + n + 1) (a * b) (double.value (double.mul magnitude factor)) := by
  obtain ⟨num, den, hden, hround, hratio⟩ := @FloatFormat.exists_mul double magnitude factor
  have hproduct := h.mul h' ha hb
  have hmiddling := hproduct.middling hcount hlow hhigh
  rw [← hratio] at hmiddling hproduct
  obtain ⟨hfinite, hclose⟩ := close_round hden hmiddling
  rw [hround]
  exact ⟨hfinite, hproduct.trans hclose⟩

/-- A rounded quotient of rounded numbers. -/
theorem close_div (hlow : 1 / 2 ^ 200 ≤ a / b) (hhigh : a / b ≤ 2 ^ 200) :
    double.div magnitude factor < double.infinity ∧
      Close (m + n + 1) (a / b) (double.value (double.div magnitude factor)) := by
  obtain ⟨num, den, hden, hround, hratio⟩ :=
    @FloatFormat.exists_div double magnitude factor (h'.pos_right hb)
  have hquotient := h.div h' ha hb
  have hmiddling := hquotient.middling hcount hlow hhigh
  rw [← hratio] at hmiddling hquotient
  obtain ⟨hfinite, hclose⟩ := close_round hden hmiddling
  rw [hround]
  exact ⟨hfinite, hquotient.trans hclose⟩

end Products

/-- What is read for a decimal in the middle of the range is three roundings
away from it. -/
theorem close_scaled {x : Decimal} (hpos : 0 < x.digits) (hdigits : x.digits < UInt64.size)
    (hexponent : x.exponent.natAbs ≤ 63) (hlow : 1 / 2 ^ 200 ≤ x.value)
    (hhigh : x.value ≤ 2 ^ 200) : scaled x.digits x.exponent < double.infinity ∧
      Close 3 x.value (double.value (scaled x.digits x.exponent)) := by
  have hdigitsPos : (0 : ℚ) < x.digits := by exact_mod_cast hpos
  have hdigitsClose : Close 1 (x.digits : ℚ) (double.value (double.round x.digits 1)) := by
    have hone : (1 : ℚ) ≤ x.digits := by exact_mod_cast hpos
    have hlt : (x.digits : ℚ) < 2 ^ 64 := by exact_mod_cast hdigits
    have hmiddling : Middling ((x.digits : ℚ) / (1 : Nat)) := by
      rw [Nat.cast_one, div_one]
      constructor
      · refine le_trans ?_ hone
        norm_num
      · refine le_trans hlt.le ?_
        norm_num
    have hclose := (close_round Nat.one_pos hmiddling).2
    rwa [Nat.cast_one, div_one] at hclose
  generalize hpower : x.exponent.natAbs = power at hexponent
  have hpowerPos : (0 : ℚ) < 10 ^ power := by positivity
  have hpowerClose : Close 1 ((10 : ℚ) ^ power) (double.value (powerOfTen power)) := by
    have hmiddling : Middling (((10 ^ power : Nat) : ℚ) / (1 : Nat)) := by
      rw [Nat.cast_one, div_one, Nat.cast_pow, Nat.cast_ofNat]
      constructor
      · refine le_trans ?_ (one_le_pow₀ (by norm_num))
        norm_num
      · refine le_trans (pow_le_pow_right₀ (by norm_num) hexponent) ?_
        norm_num
    have hclose := (close_round Nat.one_pos hmiddling).2
    rwa [Nat.cast_one, div_one, Nat.cast_pow, Nat.cast_ofNat] at hclose
  unfold scaled
  rw [hpower]
  by_cases hneg : x.exponent < 0
  · have hvalue : x.value = x.digits / 10 ^ power := by
      have hexp : x.exponent = -(power : Int) := by omega
      rw [Decimal.value, hexp, zpow_neg, zpow_natCast, div_eq_mul_inv]
    rw [if_pos hneg, scaleDown, if_pos (Nat.le_trans hexponent (by decide))]
    rw [hvalue] at hlow hhigh ⊢
    exact close_div hdigitsClose hpowerClose hdigitsPos hpowerPos (by decide) hlow hhigh
  · have hvalue : x.value = x.digits * 10 ^ power := by
      have hexp : x.exponent = (power : Int) := by omega
      rw [Decimal.value, hexp, zpow_natCast]
    rw [if_neg hneg]
    rw [hvalue] at hlow hhigh ⊢
    exact close_mul hdigitsClose hpowerClose hdigitsPos hpowerPos (by decide) hlow hhigh

/-! ## Texts -/

theorem Decimal.printed_value (x : Decimal) : x.printed.value = x.value := by
  unfold printed
  split
  next h =>
    obtain ⟨power, hpower⟩ := Int.eq_ofNat_of_zero_le h.1
    unfold value
    simp only [hpower, Int.toNat_natCast, zpow_neg, zpow_one, zpow_natCast]
    push_cast
    field_simp
  next => rfl

theorem Decimal.printed_digits_pos {x : Decimal} (h : 0 < x.digits) : 0 < x.printed.digits := by
  unfold printed
  split
  next => exact Nat.mul_pos (by decide) (Nat.mul_pos h (Nat.pow_pos (by decide)))
  next => exact h

section Shortest

variable {magnitude : Nat} (hpos : 0 < magnitude)
include hpos

/-- The decimal of a number in the middle of the range has a small exponent. -/
theorem shortest_exponent_le (hlow : 1 / 2 ^ 150 ≤ double.value magnitude)
    (hhigh : (double.shortest magnitude).value ≤ 2 ^ 131) :
    (double.shortest magnitude).printed.exponent.natAbs ≤ 63 := by
  have hdigits := FloatFormat.shortest_digits_pos hpos
  have hplace := (FloatFormat.shortest_found hpos).place_le
  have hleading := (RoundingInterval.leadingPlace_bounds (Nat.mul_pos (by decide)
    (Nat.two_pow_pos _)) (FloatFormat.ofMagnitude_large hpos)).2
  rw [FloatFormat.center_ofMagnitude] at hleading
  generalize (RoundingInterval.ofMagnitude double magnitude).leadingPlace = place at hplace hleading
  generalize double.shortest magnitude = x at hdigits hplace hhigh ⊢
  have hten : (1 : ℚ) < 10 := by norm_num
  have hplaceLow : -46 < place + 1 := by
    refine (zpow_lt_zpow_iff_right₀ hten).mp (lt_of_le_of_lt ?_ (lt_of_le_of_lt hlow hleading))
    norm_num
  have hexponentHigh : x.exponent < 40 := by
    have hone : (1 : ℚ) ≤ x.digits := by exact_mod_cast hdigits
    have hpower : (10 : ℚ) ^ x.exponent ≤ x.value :=
      le_mul_of_one_le_left (by positivity) hone
    refine (zpow_lt_zpow_iff_right₀ hten).mp (lt_of_le_of_lt (le_trans hpower hhigh) ?_)
    norm_num
  unfold Decimal.printed
  split
  next => exact (by decide : (-1 : Int).natAbs ≤ 63)
  next => omega

/-- The text of a number in the middle of the range is four roundings away
from it, at most, when it is read. -/
theorem close_reread (hnormal : 2 ^ double.fractionBits ≤ magnitude)
    (hlow : 1 / 2 ^ 150 ≤ double.value magnitude) (hhigh : double.value magnitude ≤ 2 ^ 130) :
    scaled (double.shortest magnitude).printed.digits
        (double.shortest magnitude).printed.exponent < double.infinity ∧
      Close 4 (double.value magnitude) (double.value
        (scaled (double.shortest magnitude).printed.digits
          (double.shortest magnitude).printed.exponent)) := by
  obtain ⟨hbelow, habove⟩ := FloatFormat.shortest_near hpos hnormal
  have hvalue : 0 < double.value magnitude := lt_of_lt_of_le (by positivity) hlow
  have htext : Close 1 (double.value magnitude) (double.shortest magnitude).value :=
    Close.of_near hvalue.le hbelow habove
  have hvalueHigh : (double.shortest magnitude).value ≤ 2 ^ 131 := by
    refine le_trans habove ?_
    norm_num at hhigh ⊢
    linarith
  have hvalueLow : 1 / 2 ^ 200 ≤ (double.shortest magnitude).value := by
    refine le_trans ?_ hbelow
    norm_num at hlow ⊢
    linarith
  have hexponent := shortest_exponent_le hpos hlow hvalueHigh
  have hprinted := (double.shortest magnitude).printed_value
  have hscaled := close_scaled
    (Decimal.printed_digits_pos (FloatFormat.shortest_digits_pos hpos))
    (Decimal.printed_digits_lt (FloatFormat.shortest_found hpos).digits_le) hexponent
    (hprinted ▸ hvalueLow) (hprinted ▸ le_trans hvalueHigh (by norm_num))
  rw [hprinted] at hscaled
  exact ⟨hscaled.1, htext.trans hscaled.2⟩

end Shortest

/-! ## Singles -/

/-- A double that is a few roundings away from a single is narrowed to it. -/
theorem convert_of_close {magnitude other : Nat} (hpos : 0 < magnitude)
    (hfinite : magnitude < single.infinity) (hother : other < double.infinity)
    (h : Close 4 (single.value magnitude) (double.value other)) :
    single.convert double other = magnitude := by
  have hvalue := FloatFormat.value_pos (@FloatFormat.units_pos single _ hpos)
  have hfactor : (1 + 1 / 2 ^ 52 : ℚ) ^ 4 < 1 + 1 / 2 ^ 26 := by norm_num
  have hpower : single.fractionBits + 3 = 26 := rfl
  have hdouble := h.pos_right hvalue
  unfold FloatFormat.convert
  rw [if_pos hother, FloatFormat.toRatio_eq]
  refine FloatFormat.round_of_covers (Nat.two_pow_pos _) hfinite
    (FloatFormat.covers_of_near hpos (Nat.two_pow_pos _) ?_ ?_)
  · rw [← FloatFormat.value_eq, hpower]
    have hle := lt_of_le_of_lt h.ge (mul_lt_mul_of_pos_left hfactor hdouble)
    by_contra hge
    nlinarith
  · rw [← FloatFormat.value_eq, hpower]
    exact lt_of_le_of_lt h.le (mul_lt_mul_of_pos_left hfactor hvalue)

namespace Binary32

theorem value_widen {x : Binary32} (h : x.magnitude < single.infinity) :
    double.value x.widen.magnitude = single.value x.magnitude := by
  obtain ⟨-, -, hunits⟩ := widen_spec h
  have hlowest : double.lowestExponent = 925 + single.lowestExponent := rfl
  generalize 925 = shift at hunits hlowest
  have hscale : ((2 ^ shift : Nat) : ℚ) ≠ 0 := by exact_mod_cast (Nat.two_pow_pos shift).ne'
  rw [FloatFormat.value_eq, FloatFormat.value_eq, hunits, hlowest, Nat.pow_add,
    Nat.mul_comm _ (2 ^ shift), Nat.cast_mul, Nat.cast_mul, mul_div_mul_left _ _ hscale]

/-- Singles are in the middle of the range of doubles. -/
theorem value_bounds {magnitude : Nat} (hpos : 0 < magnitude)
    (hfinite : magnitude < single.infinity) :
    1 / 2 ^ 150 ≤ single.value magnitude ∧ single.value magnitude ≤ 2 ^ 130 := by
  have hunits : single.units magnitude ≤ single.units (single.infinity - 1) :=
    FloatFormat.units_mono (by omega)
  have htop : single.units (single.infinity - 1) ≤ 2 ^ 130 * 2 ^ 149 := by decide +kernel
  have hhigh : (single.units magnitude : ℚ) ≤ 2 ^ 130 * 2 ^ 149 := by
    exact_mod_cast Nat.le_trans hunits htop
  have hlow : (1 : ℚ) ≤ single.units magnitude := by
    exact_mod_cast @FloatFormat.units_pos single _ hpos
  have hlowest : single.lowestExponent = 149 := rfl
  unfold FloatFormat.value
  rw [hlowest]
  constructor
  · rw [div_le_div_iff₀ (by positivity) (by positivity)]
    linarith
  · rw [div_le_iff₀ (by positivity)]
    exact hhigh

theorem magnitude_widen_eq_zero {x : Binary32} (h : x.magnitude < single.infinity) :
    x.widen.magnitude = 0 ↔ x.magnitude = 0 := by
  obtain ⟨-, -, hunits⟩ := widen_spec h
  generalize 925 = shift at hunits
  have hpower : 0 < 2 ^ shift := Nat.two_pow_pos _
  generalize 2 ^ shift = factor at hunits hpower
  constructor
  · intro hzero
    by_contra hpos
    have hwide := Nat.mul_pos (@FloatFormat.units_pos single _ (Nat.pos_of_ne_zero hpos)) hpower
    have hnone : double.units 0 = 0 := rfl
    rw [← hunits, hzero, hnone] at hwide
    exact Nat.lt_irrefl 0 hwide
  · intro hzero
    by_contra hpos
    have hwide := @FloatFormat.units_pos double _ (Nat.pos_of_ne_zero hpos)
    have hnone : single.units 0 = 0 := rfl
    rw [hunits, hzero, hnone, Nat.zero_mul] at hwide
    exact Nat.lt_irrefl 0 hwide

end Binary32

namespace Binary64

/-- A finite double that differs from another one in its last bits at most: no
more than four roundings lie between them. -/
structure Near (x y : Binary64) : Prop where
  finite : y.magnitude < double.infinity
  sign : y.isNegative = x.isNegative
  close : Close 4 (double.value x.magnitude) (double.value y.magnitude)

/-- Zeros, and doubles that are neither too small nor too large for singles. -/
def Moderate (x : Binary64) : Prop :=
  x.magnitude = 0 ∨ 1 / 2 ^ 150 ≤ double.value x.magnitude ∧ double.value x.magnitude ≤ 2 ^ 130

theorem Near.eq_of_zero {x y : Binary64} (h : x.Near y) (hzero : x.magnitude = 0) : y = x := by
  have hnone : double.value 0 = 0 := by
    have hunits : double.units 0 = 0 := rfl
    rw [FloatFormat.value, hunits, Nat.cast_zero, zero_div]
  have hy : y.magnitude = 0 := by
    by_contra hpos
    have hvalue := FloatFormat.value_pos
      (@FloatFormat.units_pos double _ (Nat.pos_of_ne_zero hpos))
    have hle := h.close.le
    rw [hzero, hnone, zero_mul] at hle
    exact absurd hle (not_le.mpr hvalue)
  rw [← y.ofMagnitude_isNegative_magnitude, ← x.ofMagnitude_isNegative_magnitude, hy, hzero,
    h.sign]

/-- A double in the middle of the range is near the double that its text is
read as. -/
theorem near_reread {x : Binary64} (h : x.Moderate) : x.Near x.reread := by
  have hsmall : double.infinity < 2 ^ double.signPosition := by decide
  by_cases hzero : x.magnitude = 0
  · have hfinite : x.magnitude < double.infinity := hzero ▸ (by decide)
    rw [reread, if_pos hzero]
    exact ⟨hfinite, rfl, .refl 4 (FloatFormat.value_nonneg _)⟩
  · obtain ⟨hlow, hhigh⟩ := h.resolve_left hzero
    have hnormal : 2 ^ double.fractionBits ≤ x.magnitude := by
      -- subnormal doubles are too small
      by_contra hsub
      have hlt := Nat.not_le.mp hsub
      have hlowest : double.lowestExponent = double.fractionBits + (150 + 872) := rfl
      have hfactor : (1 : ℚ) ≤ 2 ^ 872 := one_le_pow₀ (by norm_num)
      generalize 872 = shift at hlowest hfactor
      have hsignificand : (x.magnitude : ℚ) < 2 ^ double.fractionBits := by exact_mod_cast hlt
      rw [FloatFormat.value, FloatFormat.units_of_lt hlt, hlowest, pow_add, pow_add,
        div_le_div_iff₀ (by positivity) (by positivity), one_mul] at hlow
      have hproduct : (2 : ℚ) ^ double.fractionBits * 2 ^ 150 ≤
          2 ^ double.fractionBits * (2 ^ 150 * 2 ^ shift) := by
        rw [← mul_assoc]
        exact le_mul_of_one_le_right (by positivity) hfactor
      have hless := mul_lt_mul_of_pos_right hsignificand (by positivity : (0 : ℚ) < 2 ^ 150)
      exact absurd hlow (not_le.mpr (lt_of_lt_of_le hless hproduct))
    obtain ⟨hread, hclose⟩ := close_reread (Nat.pos_of_ne_zero hzero) hnormal hlow hhigh
    have hlt := Nat.lt_trans hread hsmall
    rw [reread, if_neg hzero]
    exact ⟨by rwa [magnitude_ofMagnitude hlt], isNegative_ofMagnitude hlt,
      by rwa [magnitude_ofMagnitude hlt]⟩

end Binary64

namespace Binary32

/-- The doubles of singles are in the middle of the range. -/
theorem moderate_widen {x : Binary32} (h : x.magnitude < single.infinity) : x.widen.Moderate := by
  by_cases hzero : x.magnitude = 0
  · exact .inl ((magnitude_widen_eq_zero h).mpr hzero)
  · have hbounds := value_bounds (Nat.pos_of_ne_zero hzero) h
    rw [← value_widen h] at hbounds
    exact .inr hbounds

/-- A single comes back from every double that is near to it. -/
theorem narrow_of_near {x : Binary32} (h : x.magnitude < single.infinity) {y : Binary64}
    (hy : x.widen.Near y) : y.narrow = x := by
  obtain ⟨hsign, hfinite, -⟩ := widen_spec h
  by_cases hzero : x.magnitude = 0
  · have hback := x.narrow_standard_widen
    rw [Binary64.standard_of_isFinite (Binary64.isFinite_iff.mpr hfinite), standard_of_lt h] at hback
    rw [hy.eq_of_zero ((magnitude_widen_eq_zero h).mpr hzero), hback]
  · have hclose := hy.close
    rw [value_widen h] at hclose
    rw [Binary64.narrow, convert_of_close (Nat.pos_of_ne_zero hzero) h hy.finite hclose, hy.sign,
      hsign, ofMagnitude_isNegative_magnitude]

end Binary32

end WireCodec
