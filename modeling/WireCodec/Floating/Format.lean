/-! # Binary floating-point numbers

A floating-point number is its bit pattern, so that the payload and the sign
of a NaN are kept. The exact value of a finite number is a fraction of two
natural numbers, and every operation on numbers is one on such fractions,
rounded once.
-/

namespace WireCodec

/-- A single-precision number, as its bit pattern. -/
structure Binary32 where
  bits : UInt32
deriving DecidableEq, Repr, Inhabited

/-- A double-precision number, as its bit pattern. -/
structure Binary64 where
  bits : UInt64
deriving DecidableEq, Repr, Inhabited

/-- The widths of a binary interchange format: the stored bits of the
significand and those of the exponent. -/
structure FloatFormat where
  fractionBits : Nat
  exponentBits : Nat
deriving DecidableEq, Repr

namespace FloatFormat

/-- The format of single-precision numbers. -/
def single : FloatFormat := ⟨23, 8⟩

/-- The format of double-precision numbers. -/
def double : FloatFormat := ⟨52, 11⟩

variable (format : FloatFormat)

/-- The exponent field of infinities and NaNs. -/
def topExponent : Nat := Nat.pow 2 format.exponentBits - 1

/-- The exponent of the last bit of a subnormal number, negated. -/
def lowestExponent : Nat := Nat.pow 2 (format.exponentBits - 1) - 2 + format.fractionBits

/-- The position of the sign bit. -/
def signPosition : Nat := format.fractionBits + format.exponentBits

/-- The pattern of positive infinity. -/
def infinity : Nat := format.topExponent * Nat.pow 2 format.fractionBits

/-- The pattern of the standard NaN: quiet, positive, without payload. -/
def quietNaN : Nat := format.infinity + Nat.pow 2 (format.fractionBits - 1)

/-- Whether the sign bit of a pattern is set. -/
def isNegative (pattern : Nat) : Bool := pattern.testBit format.signPosition

/-- A pattern without its sign bit. -/
def magnitude (pattern : Nat) : Nat := pattern % Nat.pow 2 format.signPosition

/-- A pattern with its sign bit set when asked. -/
def signed (negative : Bool) (magnitude : Nat) : Nat :=
  if negative then magnitude + Nat.pow 2 format.signPosition else magnitude

def isFinite (pattern : Nat) : Bool := format.magnitude pattern < format.infinity

def isNaN (pattern : Nat) : Bool := format.infinity < format.magnitude pattern

/-- The significand and the exponent of a finite magnitude, which is
`significand * 2 ^ exponent / 2 ^ lowestExponent`. -/
def decompose (magnitude : Nat) : Nat × Nat :=
  let fraction := magnitude % Nat.pow 2 format.fractionBits
  let exponent := magnitude / Nat.pow 2 format.fractionBits
  if exponent = 0 then (fraction, 0) else (fraction + Nat.pow 2 format.fractionBits, exponent - 1)

/-- The exact value of a finite magnitude, as a numerator and a denominator. -/
def toRatio (magnitude : Nat) : Nat × Nat :=
  let (significand, exponent) := format.decompose magnitude
  (significand * Nat.pow 2 exponent, Nat.pow 2 format.lowestExponent)

end FloatFormat

namespace Binary64

def isNegative (x : Binary64) : Bool := FloatFormat.double.isNegative x.bits.toNat

def isFinite (x : Binary64) : Bool := FloatFormat.double.isFinite x.bits.toNat

def isNaN (x : Binary64) : Bool := FloatFormat.double.isNaN x.bits.toNat

/-- The number of a magnitude and a sign. -/
def ofMagnitude (negative : Bool) (magnitude : Nat) : Binary64 :=
  ⟨UInt64.ofNat (FloatFormat.double.signed negative magnitude)⟩

/-- The pattern without its sign bit. -/
def magnitude (x : Binary64) : Nat := FloatFormat.double.magnitude x.bits.toNat

end Binary64

namespace Binary32

def isNegative (x : Binary32) : Bool := FloatFormat.single.isNegative x.bits.toNat

def isFinite (x : Binary32) : Bool := FloatFormat.single.isFinite x.bits.toNat

def isNaN (x : Binary32) : Bool := FloatFormat.single.isNaN x.bits.toNat

/-- The number of a magnitude and a sign. -/
def ofMagnitude (negative : Bool) (magnitude : Nat) : Binary32 :=
  ⟨UInt32.ofNat (FloatFormat.single.signed negative magnitude)⟩

/-- The pattern without its sign bit. -/
def magnitude (x : Binary32) : Nat := FloatFormat.single.magnitude x.bits.toNat

end Binary32

end WireCodec
