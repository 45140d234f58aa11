import WireCodec.Floating.Format

/-! # Rounding to a binary format

A fraction of two natural numbers is rounded to the nearest number of a
format, a tie going to the even significand. Every conversion and every
operation is the exact result, rounded once.
-/

namespace WireCodec

/-- The natural number nearest to a quotient; a tie goes to the even one. -/
def roundQuotient (num den : Nat) : Nat :=
  let quotient := num / den
  let remainder := num % den
  if 2 * remainder < den then quotient
  else if den < 2 * remainder then quotient + 1
  else quotient + quotient % 2

namespace FloatFormat

variable (format : FloatFormat)

/-- The magnitude nearest to a quotient. The significand is rounded to its
full width, or to the last bit of a subnormal number if that is coarser; what
it carries into the exponent is as it should be. -/
def round (num den : Nat) : Nat :=
  let scaled := num * Nat.pow 2 format.lowestExponent
  let exponent := Nat.log2 (scaled / den) - format.fractionBits
  let significand := roundQuotient scaled (den * Nat.pow 2 exponent)
  min format.infinity (exponent * Nat.pow 2 format.fractionBits + significand)

/-- The magnitude nearest to a pair of a numerator and a denominator. -/
def ofRatio (ratio : Nat × Nat) : Nat := format.round ratio.1 ratio.2

/-- The rounded product of two finite magnitudes. -/
def mul (a b : Nat) : Nat :=
  let (n, d) := format.toRatio a
  let (m, e) := format.toRatio b
  format.round (n * m) (d * e)

/-- The rounded quotient of two finite magnitudes. -/
def div (a b : Nat) : Nat :=
  let (n, d) := format.toRatio a
  let (m, e) := format.toRatio b
  format.round (n * e) (d * m)

/-- The magnitude in this format of a magnitude in another one. What is no
finite number becomes infinity or the standard NaN. -/
def convert (source : FloatFormat) (magnitude : Nat) : Nat :=
  if magnitude < source.infinity then format.ofRatio (source.toRatio magnitude)
  else if magnitude = source.infinity then format.infinity
  else format.quietNaN

end FloatFormat

/-- The double nearest to an integer. -/
def Binary64.ofInt (n : Int) : Binary64 :=
  .ofMagnitude (n < 0) (FloatFormat.double.round n.natAbs 1)

/-- The double with the value of a single. -/
def Binary32.widen (x : Binary32) : Binary64 :=
  .ofMagnitude x.isNegative (FloatFormat.double.convert .single x.magnitude)

/-- The single nearest to a double. -/
def Binary64.narrow (x : Binary64) : Binary32 :=
  .ofMagnitude x.isNegative (FloatFormat.single.convert .double x.magnitude)

end WireCodec
