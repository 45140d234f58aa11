import WireCodec.Floating.Rounding
import WireCodec.Floating.Shortest
import WireCodec.Text.Decimal

/-! # Texts of numbers that are not finite

Infinities and NaNs are written as words. What is read as one is any word for
it, in either case and with or without a sign, and any decimal that is too
large for a finite double.
-/

namespace WireCodec

/-- The word for a double that is not finite. -/
def Binary64.word (x : Binary64) : String :=
  if x.isNaN then "NaN" else if x.isNegative then "-inf" else "inf"

/-- The value of exponent digits. Once it is beyond all doubles more digits
do not count. -/
def exponentDigits? : Nat → List Char → Option Nat
  | n, [] => some n
  | n, c :: rest => do
    let digit ← Text.Decimal.digitValue? c
    exponentDigits? (if n < 65536 then 10 * n + digit else n) rest

/-- The exponent of a list of characters, with or without a sign. -/
def exponent? : List Char → Option Int
  | '+' :: c :: rest => Int.ofNat <$> exponentDigits? 0 (c :: rest)
  | '-' :: c :: rest => (fun n => -Int.ofNat n) <$> exponentDigits? 0 (c :: rest)
  | c :: rest => Int.ofNat <$> exponentDigits? 0 (c :: rest)
  | [] => none

/-- The decimal that a list of characters spells: digits with a point anywhere
among them, and an exponent behind them. -/
def Decimal.ofChars? (cs : List Char) : Option Decimal := do
  let (whole, rest) := cs.span Char.isDigit
  let (fraction, rest) :=
    match rest with
    | '.' :: tail => tail.span Char.isDigit
    | _ => ([], rest)
  let digits ← Text.Decimal.digits? (whole ++ fraction)
  match rest with
  | [] => return ⟨digits, -fraction.length⟩
  | c :: tail =>
    if c = 'e' ∨ c = 'E' then return ⟨digits, (← exponent? tail) - fraction.length⟩ else none

/-- The magnitude that is not finite and that an unsigned text stands for. -/
def nonFiniteMagnitude? (cs : List Char) : Option Nat :=
  let word := String.ofList (cs.map Char.toLower)
  if word = "nan" then some FloatFormat.double.quietNaN
  else if word = "inf" ∨ word = "infinity" then some FloatFormat.double.infinity
  else do
    let magnitude := FloatFormat.double.ofRatio (← Decimal.ofChars? cs).toRatio
    if magnitude = FloatFormat.double.infinity then some magnitude else none

/-- The double that is not finite and that a text stands for. -/
def Binary64.ofNonFinite? (text : String) : Option Binary64 :=
  match text.toList with
  | '+' :: rest => ofMagnitude false <$> nonFiniteMagnitude? rest
  | '-' :: rest => ofMagnitude true <$> nonFiniteMagnitude? rest
  | cs => ofMagnitude false <$> nonFiniteMagnitude? cs

end WireCodec
