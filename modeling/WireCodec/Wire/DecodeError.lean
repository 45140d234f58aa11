/-! # Decode errors

The ways in which reading an encoded message can fail.
-/

namespace WireCodec

/-- How many length-delimited payloads may be open at once. -/
def nestingLimit : Nat := 100

/-- Why a read failed. -/
inductive DecodeError where
  | unexpectedEof
  | malformedVarint
  | invalidUtf8
  | unimplementedWireType (wireType : UInt8)
  | unexpectedWireType (field : UInt32) (wireType : UInt8)
  | missingRequiredField (name : String)
  | malformedMapEntry (missing : String)
  | nestingTooDeep
  /-- A plan mentions a message, an enum or a field that does not exist. -/
  | danglingReference (name : String)
deriving DecidableEq, Repr

/-- The wording of a decode error. -/
def DecodeError.message : DecodeError → String
  | unexpectedEof => "unexpected end of input"
  | malformedVarint => "malformed varint"
  | invalidUtf8 => "invalid UTF-8 in string"
  | unimplementedWireType wireType => s!"unimplemented type: {wireType.toNat}"
  | unexpectedWireType field wireType =>
      s!"unexpected wire type {wireType.toNat} for field {field.toNat}"
  | missingRequiredField name => s!"missing required field: `{name}`"
  | malformedMapEntry missing => s!"malformed map entry: no {missing}"
  | nestingTooDeep => s!"message nested deeper than {nestingLimit} levels"
  | danglingReference name => s!"dangling reference to `{name}`"

end WireCodec
