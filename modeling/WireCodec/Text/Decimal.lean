/-! # Decimal integers in text

Integers are read from their decimal digits, with an optional sign in front.
Only ASCII digits count and nothing may surround them.
-/

namespace WireCodec.Text.Decimal

/-- The number a character stands for. -/
def digitValue? (c : Char) : Option Nat :=
  if 48 ≤ c.toNat ∧ c.toNat ≤ 57 then some (c.toNat - 48) else none

/-- The number that digits spell after a number already read. -/
def digitsFrom? (n : Nat) : List Char → Option Nat
  | [] => some n
  | c :: rest => do digitsFrom? (10 * n + (← digitValue? c)) rest

/-- The number that one or more digits spell. -/
def digits? : List Char → Option Nat
  | [] => none
  | cs => digitsFrom? 0 cs

/-- The natural number of a text, with or without a plus sign. -/
def nat? (text : String) : Option Nat :=
  match text.toList with
  | '+' :: rest => digits? rest
  | cs => digits? cs

/-- The integer of a text, with or without a sign. -/
def int? (text : String) : Option Int :=
  match text.toList with
  | '+' :: rest => Int.ofNat <$> digits? rest
  | '-' :: rest => (fun n => -Int.ofNat n) <$> digits? rest
  | cs => Int.ofNat <$> digits? cs

end WireCodec.Text.Decimal

namespace WireCodec

/-- The 32-bit word of an integer in its range. -/
def int32? (n : Int) : Option Int32 :=
  if -2147483648 ≤ n ∧ n ≤ 2147483647 then some (Int32.ofInt n) else none

/-- The 64-bit word of an integer in its range. -/
def int64? (n : Int) : Option Int64 :=
  if -9223372036854775808 ≤ n ∧ n ≤ 9223372036854775807 then some (Int64.ofInt n) else none

/-- The unsigned 32-bit word of a number in its range. -/
def uint32? (n : Nat) : Option UInt32 :=
  if n < 4294967296 then some (UInt32.ofNat n) else none

/-- The unsigned 64-bit word of a number in its range. -/
def uint64? (n : Nat) : Option UInt64 :=
  if n < 18446744073709551616 then some (UInt64.ofNat n) else none

end WireCodec
