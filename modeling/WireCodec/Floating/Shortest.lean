import WireCodec.Floating.Format

/-! # Shortest decimals

The decimal with the fewest digits among those nearer to a floating-point
number than to any other of its format. Of several such decimals it is the
one nearest to the number, and the even one of two that are equally near.
-/

namespace WireCodec

/-- How many decimal digits a number has; zero has none. -/
def digitCount (n : Nat) : Nat := if n = 0 then 0 else digitCount (n / 10) + 1

/-- A number `digits * 10 ^ exponent`. -/
structure Decimal where
  digits : Nat
  exponent : Int
deriving DecidableEq, Repr

namespace Decimal

/-- Takes trailing zeros out of the digits. -/
def normalize (x : Decimal) : Decimal :=
  if x.digits ≠ 0 ∧ x.digits % 10 = 0 then normalize ⟨x.digits / 10, x.exponent + 1⟩ else x
termination_by x.digits
decreasing_by omega

/-- The numerator and the denominator of a decimal. -/
def toRatio (x : Decimal) : Nat × Nat :=
  if 0 ≤ x.exponent then (x.digits * Nat.pow 10 x.exponent.toNat, 1)
  else (x.digits, Nat.pow 10 (-x.exponent).toNat)

end Decimal

/-- The numbers that round to one magnitude of a format: those between two
bounds over a common denominator, and the bounds themselves if `closed`. -/
structure RoundingInterval where
  lower : Nat
  value : Nat
  upper : Nat
  den : Nat
  closed : Bool
deriving Repr

namespace RoundingInterval

/-- The interval of a finite magnitude. Below a power of two the numbers of
the format are closer together than above it. -/
def ofMagnitude (format : FloatFormat) (magnitude : Nat) : RoundingInterval :=
  let (significand, exponent) := format.decompose magnitude
  let below := if significand = Nat.pow 2 format.fractionBits ∧ exponent ≠ 0 then 1 else 2
  let scale := Nat.pow 2 exponent
  ⟨(4 * significand - below) * scale, 4 * significand * scale, (4 * significand + 2) * scale,
    4 * Nat.pow 2 format.lowestExponent, significand % 2 = 0⟩

variable (interval : RoundingInterval)

/-- Whether the interval has a decimal in it. -/
def contains (x : Decimal) : Bool :=
  let (num, den) := x.toRatio
  let (lower, point, upper) := (interval.lower * den, num * interval.den, interval.upper * den)
  if interval.closed then lower ≤ point && point ≤ upper else lower < point && point < upper

/-- The place of the leading decimal digit of the value; a place is the
exponent of a power of ten. Every value of a format is far above the power
of ten that keeps the division exact enough. -/
def leadingPlace : Int :=
  (digitCount (interval.value * Nat.pow 10 400 / interval.den) : Int) - 401

/-- The digits of the value down to a place, rounded down, and whether the
next number up is nearer to it, or as near and even. -/
def cutAt (place : Int) : Nat × Bool :=
  let (num, den) :=
    if 0 ≤ place then (interval.value, interval.den * Nat.pow 10 place.toNat)
    else (interval.value * Nat.pow 10 (-place).toNat, interval.den)
  let digits := num / den
  let twice := 2 * (num % den)
  (digits, den < twice || (den == twice && digits % 2 == 1))

/-- The decimal without digits below a place that is in the interval and
nearest to its value. -/
def nearestAt? (place : Int) : Option Decimal :=
  let (digits, up) := interval.cutAt place
  let low : Decimal := ⟨digits, place⟩
  let high : Decimal := ⟨digits + 1, place⟩
  let (first, second) := if up then (high, low) else (low, high)
  if interval.contains first then some first
  else if interval.contains second then some second
  else none

/-- The first decimal in the interval when places are added one by one, as
many as asked. -/
def search (place : Int) : Nat → Decimal
  | 0 => ⟨(interval.cutAt place).1, place⟩
  | more + 1 =>
    match interval.nearestAt? place with
    | some x => x
    | none => search (place - 1) more

end RoundingInterval

/-- The shortest decimal of a positive finite magnitude, without trailing
zeros. Seventeen digits are enough for every double. -/
def FloatFormat.shortest (format : FloatFormat) (magnitude : Nat) : Decimal :=
  let interval := RoundingInterval.ofMagnitude format magnitude
  (interval.search interval.leadingPlace 17).normalize

end WireCodec
