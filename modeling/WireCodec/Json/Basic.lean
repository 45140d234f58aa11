import WireCodec.Floating.Rounding

/-! # JSON values

The members of an object are kept in increasing order of their names, without
repetition. A number is an integer of 64 bits where its text is one, and a
double otherwise. What writes values as texts and reads them is taken as given.
-/

namespace WireCodec

/-- A JSON number. -/
inductive JsonNumber where
  | unsigned (n : UInt64)
  /-- An integer below zero. -/
  | negative (n : Int64)
  /-- A finite double. -/
  | double (x : Binary64)
deriving DecidableEq, Repr

/-- A JSON value. -/
inductive Json where
  | null
  | bool (b : Bool)
  | number (n : JsonNumber)
  | string (s : String)
  | array (items : List Json)
  | object (members : List (String × Json))
deriving Repr

namespace JsonNumber

/-- An integer as a number. -/
def ofInt64 (n : Int64) : JsonNumber := if n < 0 then negative n else unsigned n.toUInt64

/-- The signed integer that a number is, if it is one of 64 bits. -/
def toInt64? : JsonNumber → Option Int64
  | unsigned n => if n.toNat < 0x8000000000000000 then some n.toInt64 else none
  | negative n => some n
  | double _ => none

/-- The unsigned integer that a number is, if it is one. -/
def toUInt64? : JsonNumber → Option UInt64
  | unsigned n => some n
  | _ => none

/-- The double nearest to a number. -/
def toDouble : JsonNumber → Binary64
  | unsigned n => .ofInt n.toNat
  | negative n => .ofInt n.toInt
  | double x => x

end JsonNumber

/-- How the parts of a value are set in a text. -/
inductive JsonLayout where
  | compact
  | pretty
deriving DecidableEq, Repr

/-- What writes JSON values as texts, and reads them. -/
class JsonText where
  print : JsonLayout → Json → String
  parse? : String → Option Json

end WireCodec
