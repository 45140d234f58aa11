/-! # Wire types

The wire type of a field occurrence says how far its value reaches, so a
reader can pass over a field it does not know.
-/

namespace WireCodec

/-- The four wire types in use. -/
inductive WireType where
  | varint
  | fixed64
  | lengthDelimited
  | fixed32
deriving DecidableEq, Repr

namespace WireType

/-- The number that stands for a wire type in a key. -/
def code : WireType → UInt8
  | varint => 0
  | fixed64 => 1
  | lengthDelimited => 2
  | fixed32 => 5

def name : WireType → String
  | varint => "varint"
  | fixed64 => "fixed64"
  | lengthDelimited => "length-delimited"
  | fixed32 => "fixed32"

end WireType

/-- The key before a value: a field number and a wire type code. -/
structure Key where
  number : UInt32
  wireType : UInt8
deriving DecidableEq, Repr

/-- A key as the 32-bit word that is written; high bits of the field number
that do not fit fall off. -/
def Key.word (key : Key) : UInt32 := (key.number <<< 3) ||| key.wireType.toUInt32

/-- The key a 32-bit word stands for. -/
def Key.ofWord (word : UInt32) : Key := ⟨word >>> 3, (word &&& 7).toUInt8⟩

end WireCodec
