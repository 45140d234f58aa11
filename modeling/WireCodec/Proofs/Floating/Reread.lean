import WireCodec.Json.NumberReader
import WireCodec.Json.NumberText
import WireCodec.Proofs.Floating.Shortest

/-! # Doubles that are read again

The text of a double is read in double precision: its digits and its power of
ten are rounded, and so is the product or the quotient of them. No product is
too large.
-/

namespace WireCodec

open FloatFormat (double)

/-- The magnitude of `n * 10 ^ exponent`, with rounded factors. -/
def scaled (n : Nat) (exponent : Int) : Nat :=
  if exponent < 0 then scaleDown (double.round n 1) exponent.natAbs
  else double.mul (double.round n 1) (powerOfTen exponent.natAbs)

namespace Decimal

/-- A decimal with the digits of its text. Behind the point of a whole number
stands one more zero. -/
def printed (x : Decimal) : Decimal :=
  if 0 ≤ x.exponent ∧ x.place ≤ plainPlaces.2 then
    ⟨10 * (x.digits * 10 ^ x.exponent.toNat), -1⟩
  else x

end Decimal

/-- The double that is read from the text of a finite double. -/
def Binary64.reread (x : Binary64) : Binary64 :=
  if x.magnitude = 0 then x
  else
    let decimal := (double.shortest x.magnitude).printed
    .ofMagnitude x.isNegative (scaled decimal.digits decimal.exponent)

/-! ## Products -/

theorem powerOfTen_mono {exponent other : Nat} (h : exponent ≤ other) :
    powerOfTen exponent ≤ powerOfTen other :=
  FloatFormat.round_mono Nat.one_pos (Nat.pow_le_pow_right (by decide) h)

theorem scaled_lt_infinity {n exponent : Nat} (hpos : 0 < n) (hdigits : n ≤ 10 ^ 18)
    (htop : n * 10 ^ exponent ≤ FloatFormat.topDecimal.toRatio.1) : exponent ≤ topPowerOfTen ∧
      double.mul (double.round n 1) (powerOfTen exponent) < double.infinity := by
  have hexponent : exponent ≤ topPowerOfTen := by
    by_contra hlarge
    have hpow : 10 ^ (topPowerOfTen + 1) ≤ 10 ^ exponent :=
      Nat.pow_le_pow_right (by decide) (Nat.lt_of_not_le hlarge)
    have hle : 10 ^ exponent ≤ n * 10 ^ exponent := Nat.le_mul_of_pos_left _ hpos
    have hbeyond : FloatFormat.topDecimal.toRatio.1 < 10 ^ (topPowerOfTen + 1) := by
      decide +kernel
    omega
  refine ⟨hexponent, ?_⟩
  rcases Nat.lt_or_ge 290 exponent with hlarge | hsmall
  · -- the greatest digits for each of the last powers of ten are still finite
    have hall : ∀ above < topPowerOfTen - 290, double.mul (double.round
        (min (10 ^ 18) (FloatFormat.topDecimal.toRatio.1 / 10 ^ (291 + above))) 1)
        (powerOfTen (291 + above)) < double.infinity := by decide +kernel
    have hfinite := hall (exponent - 291) (by omega)
    rw [Nat.add_sub_cancel' hlarge] at hfinite
    refine Nat.lt_of_le_of_lt (FloatFormat.mul_mono (FloatFormat.round_mono Nat.one_pos ?_)
      (Nat.le_refl _)) hfinite
    exact Nat.le_min.mpr ⟨hdigits, (Nat.le_div_iff_mul_le (Nat.pow_pos (by decide))).mpr htop⟩
  · have hfinite : double.mul (double.round (10 ^ 18) 1) (powerOfTen 290) < double.infinity := by
      decide +kernel
    exact Nat.lt_of_le_of_lt (FloatFormat.mul_mono
      (FloatFormat.round_mono Nat.one_pos hdigits) (powerOfTen_mono hsmall)) hfinite

theorem scaledMagnitude?_of_neg (n : Nat) {exponent : Int} (h : exponent < 0) :
    scaledMagnitude? n exponent = some (scaled n exponent) := by
  unfold scaledMagnitude? scaled
  dsimp only
  rw [if_pos h, if_pos h]

theorem scaledMagnitude?_of_le {n : Nat} {exponent : Int} (hpos : 0 < n) (hdigits : n ≤ 10 ^ 18)
    (htop : (Decimal.mk n exponent).value ≤ FloatFormat.topDecimal.value) :
    scaledMagnitude? n exponent = some (scaled n exponent) := by
  rcases lt_or_ge exponent 0 with hneg | hexponent
  · exact scaledMagnitude?_of_neg n hneg
  · obtain ⟨power, rfl⟩ := Int.eq_ofNat_of_zero_le hexponent
    have hproduct : n * 10 ^ power ≤ FloatFormat.topDecimal.toRatio.1 := by
      rw [Decimal.value_eq, Decimal.value_eq] at htop
      have hone : FloatFormat.topDecimal.toRatio.2 = 1 := rfl
      have hratio : (Decimal.mk n power).toRatio = (n * 10 ^ power, 1) := rfl
      rw [hone, hratio, Nat.cast_one, div_one, div_one] at htop
      exact_mod_cast htop
    obtain ⟨hpower, hfinite⟩ := scaled_lt_infinity hpos hdigits hproduct
    unfold scaledMagnitude? scaled
    dsimp only
    rw [if_neg (Int.not_lt.mpr hexponent), if_neg (Int.not_lt.mpr hexponent),
      if_pos (Int.ofNat_le.mpr hpower), Int.natAbs_natCast, if_pos hfinite]

namespace Decimal

theorem digits_lt (x : Decimal) : x.digits < 10 ^ (digitsOf x.digits).length :=
  (Nat.length_toDigits_le_iff (by decide) Nat.length_toDigits_pos).mp (Nat.le_refl _)

/-- The digits of a text fit the reader of numbers. -/
theorem printed_digits_lt {x : Decimal} (h : x.digits ≤ 10 ^ 18) :
    x.printed.digits < UInt64.size := by
  unfold printed
  split
  next hplain =>
    obtain ⟨hexponent, hplace⟩ := hplain
    obtain ⟨power, hpower⟩ := Int.eq_ofNat_of_zero_le hexponent
    have hcount : (digitsOf x.digits).length + power ≤ 16 := by
      unfold place at hplace
      rw [hpower] at hplace
      change _ ≤ (15 : Int) at hplace
      omega
    have hproduct : x.digits * 10 ^ power ≤ 10 ^ 16 :=
      calc x.digits * 10 ^ power
          ≤ 10 ^ (digitsOf x.digits).length * 10 ^ power :=
            Nat.mul_le_mul_right _ (Nat.le_of_lt x.digits_lt)
        _ = 10 ^ ((digitsOf x.digits).length + power) := (Nat.pow_add ..).symm
        _ ≤ 10 ^ 16 := Nat.pow_le_pow_right (by decide) hcount
    rw [hpower, Int.toNat_natCast]
    change _ < 18446744073709551616
    dsimp only
    omega
  next =>
    change _ < 18446744073709551616
    omega

end Decimal

/-- What is read for the text of a decimal is not too large. -/
theorem Decimal.scaledMagnitude?_printed {x : Decimal} (hpos : 0 < x.digits)
    (hdigits : x.digits ≤ 10 ^ 18) (htop : x.value ≤ FloatFormat.topDecimal.value) :
    scaledMagnitude? x.printed.digits x.printed.exponent =
      some (scaled x.printed.digits x.printed.exponent) := by
  by_cases hplain : 0 ≤ x.exponent ∧ x.place ≤ plainPlaces.2
  · have hneg : x.printed.exponent < 0 := by
      rw [printed, if_pos hplain]
      exact neg_one_lt_zero
    exact scaledMagnitude?_of_neg _ hneg
  · rw [printed, if_neg hplain]
    exact scaledMagnitude?_of_le hpos hdigits htop

end WireCodec
