import WireCodec.Json.Basic
import WireCodec.Text.Decimal

/-! # Reading numbers

A number is read one digit after the other. Its digits are collected in an
integer of 64 bits. Digits before the point that do not fit any more count as
zeros, those behind it are dropped. An integer that fits is kept as it is;
everything else is scaled by its power of ten in double precision.
-/

namespace WireCodec

/-- The magnitude of the double nearest to a power of ten. -/
def powerOfTen (exponent : Nat) : Nat := FloatFormat.double.round (Nat.pow 10 exponent) 1

/-- The largest power of ten that is a finite double. -/
def topPowerOfTen : Nat := 308

/-- A magnitude divided by a power of ten, in as many steps as the powers of
ten of the format need. -/
def scaleDown (magnitude exponent : Nat) : Nat :=
  if exponent ≤ topPowerOfTen then FloatFormat.double.div magnitude (powerOfTen exponent)
  else if magnitude = 0 then 0
  else
    scaleDown (FloatFormat.double.div magnitude (powerOfTen topPowerOfTen))
      (exponent - topPowerOfTen)
termination_by exponent
decreasing_by simp only [topPowerOfTen] at *; omega

/-- The magnitude of a number `n * 10 ^ exponent`, unless it is too large. -/
def scaledMagnitude? (n : Nat) (exponent : Int) : Option Nat :=
  let magnitude := FloatFormat.double.round n 1
  if exponent < 0 then some (scaleDown magnitude exponent.natAbs)
  else if exponent ≤ topPowerOfTen then
    let product := FloatFormat.double.mul magnitude (powerOfTen exponent.natAbs)
    if product < FloatFormat.double.infinity then some product else none
  else if n = 0 then some 0
  else none

/-- How far a number has been read. -/
inductive NumberPhase where
  /-- Nothing, or a sign. -/
  | start
  /-- A zero that no digit may follow. -/
  | zero
  | integer (n : Nat)
  /-- Digits before the point of which the last ones did not fit. -/
  | longInteger (n dropped : Nat)
  /-- A point that needs a digit behind it. -/
  | point (n dropped : Nat)
  | fraction (n : Nat) (exponent : Int)
  /-- Digits behind the point of which the last ones did not fit. -/
  | longFraction (n : Nat) (exponent : Int)
  /-- The letter of an exponent. -/
  | mark (n : Nat) (exponent : Int)
  /-- The sign of an exponent. -/
  | sign (n : Nat) (exponent : Int) (down : Bool)
  | power (n : Nat) (exponent : Int) (down : Bool) (digits : Nat)
deriving DecidableEq, Repr

/-- A number that is being read. -/
structure NumberReader where
  negative : Bool
  phase : NumberPhase
deriving DecidableEq, Repr

/-- A digit behind others, if the number still fits 64 bits. -/
def appendDigit? (n digit : Nat) : Option Nat :=
  if 10 * n + digit < UInt64.size then some (10 * n + digit) else none

namespace NumberPhase

/-- Reads a digit. -/
def digit? (digit : Nat) : NumberPhase → Option NumberPhase
  | start => some (if digit = 0 then zero else integer digit)
  | zero => none
  | integer n =>
    match appendDigit? n digit with
    | some more => some (integer more)
    | none => some (longInteger n 1)
  | longInteger n dropped => some (longInteger n (dropped + 1))
  | point n dropped =>
    match appendDigit? n digit with
    | some more => some (fraction more (dropped - 1))
    | none => some (longFraction n dropped)
  | fraction n exponent =>
    match appendDigit? n digit with
    | some more => some (fraction more (exponent - 1))
    | none => some (longFraction n exponent)
  | longFraction n exponent => some (longFraction n exponent)
  | mark n exponent => some (power n exponent false digit)
  | sign n exponent down => some (power n exponent down digit)
  | power n exponent down digits => some (power n exponent down (10 * digits + digit))

/-- Reads a point. -/
def point? : NumberPhase → Option NumberPhase
  | zero => some (point 0 0)
  | integer n => some (point n 0)
  | longInteger n dropped => some (point n dropped)
  | _ => none

/-- Reads the letter of an exponent. -/
def mark? : NumberPhase → Option NumberPhase
  | zero => some (mark 0 0)
  | integer n => some (mark n 0)
  | longInteger n dropped => some (mark n dropped)
  | fraction n exponent | longFraction n exponent => some (mark n exponent)
  | _ => none

/-- Reads the sign of an exponent. -/
def sign? (down : Bool) : NumberPhase → Option NumberPhase
  | mark n exponent => some (sign n exponent down)
  | _ => none

end NumberPhase

namespace NumberReader

/-- Reads a character, unless it does not belong to the number. -/
def step? (reader : NumberReader) (c : Char) : Option NumberReader :=
  let next :=
    match Text.Decimal.digitValue? c with
    | some digit => reader.phase.digit? digit
    | none =>
      if c = '.' then reader.phase.point?
      else if c = 'e' ∨ c = 'E' then reader.phase.mark?
      else if c = '+' then reader.phase.sign? false
      else if c = '-' then reader.phase.sign? true
      else none
  next.map fun phase => { reader with phase }

/-- The number of an integer whose digits fit. -/
def ofInteger (negative : Bool) (n : Nat) : JsonNumber :=
  if negative then
    if 0 < n ∧ n ≤ 0x8000000000000000 then .negative (Int64.ofInt (-n))
    else .double (.ofMagnitude true (FloatFormat.double.round n 1))
  else .unsigned (UInt64.ofNat n)

/-- The number `n * 10 ^ exponent` in double precision, unless it is too
large. -/
def ofScaled? (negative : Bool) (n : Nat) (exponent : Int) : Option JsonNumber :=
  (scaledMagnitude? n exponent).map fun magnitude => .double (.ofMagnitude negative magnitude)

/-- The number that was read, if it is complete and not too large. -/
def finish? (reader : NumberReader) : Option JsonNumber :=
  match reader.phase with
  | .zero => some (ofInteger reader.negative 0)
  | .integer n => some (ofInteger reader.negative n)
  | .longInteger n dropped => ofScaled? reader.negative n dropped
  | .fraction n exponent | .longFraction n exponent => ofScaled? reader.negative n exponent
  | .power n exponent down digits =>
    ofScaled? reader.negative n (if down then exponent - digits else exponent + digits)
  | .start | .point _ _ | .mark _ _ | .sign _ _ _ => none

end NumberReader

end WireCodec
