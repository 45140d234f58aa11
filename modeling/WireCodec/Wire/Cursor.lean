import WireCodec.Bytes
import WireCodec.Wire.DecodeError
import WireCodec.Wire.ScalarType

/-! # Cursors

A cursor stands in a byte string, between its start and a limit, at some
nesting depth. A read answers a value or an error, and in both cases the
cursor it leaves behind. A payload of known length is read under a smaller
limit, which is lifted afterwards; whoever reads the payload may stop early.
-/

namespace WireCodec

/-- A position in a byte string, the position reading must stop at, and the
number of length-delimited payloads around it. -/
structure Cursor where
  offset : Nat
  limit : Nat
  depth : Nat
deriving DecidableEq, Repr

namespace Cursor

/-- The cursor before a whole byte string. -/
def start (input : Bytes) : Cursor := ⟨0, input.size, 0⟩

def remaining (cursor : Cursor) : Nat := cursor.limit - cursor.offset

def atEnd (cursor : Cursor) : Bool := cursor.limit ≤ cursor.offset

end Cursor

/-- A read from a byte string. It keeps its cursor when it fails. -/
abbrev Read := ReaderT Bytes (EStateM DecodeError Cursor)

namespace Read

variable {α σ : Type}

/-- Whether the limit is reached. -/
def atEnd : Read Bool := fun _ cursor => .ok cursor.atEnd cursor

/-- The next `count` bytes, if there are as many before the limit. -/
def take (count : Nat) : Read Bytes := fun input cursor =>
  if cursor.remaining < count then .error .unexpectedEof cursor
  else
    .ok (input.extract cursor.offset (cursor.offset + count))
      { cursor with offset := cursor.offset + count }

/-- The next byte, if there is one before the limit. -/
def byte : Read UInt8 := fun input cursor =>
  if h : cursor.offset < cursor.limit ∧ cursor.offset < input.size then
    .ok input[cursor.offset] { cursor with offset := cursor.offset + 1 }
  else .error .unexpectedEof cursor

/-- All bytes up to the limit. -/
def rest : Read Bytes := fun input cursor => take cursor.remaining input cursor

/-- The cursor at the start of a payload of `length` bytes, limited to it. -/
def enter? (length : Nat) (cursor : Cursor) : Option Cursor :=
  if cursor.remaining < length then none
  else some { cursor with limit := cursor.offset + length }

/-- Reads a payload of `length` bytes. The limit is lifted again in any case;
after a success the cursor stands behind the payload. -/
def withLimit (length : Nat) (body : Read α) : Read α := fun input cursor =>
  match enter? length cursor with
  | none => .error .unexpectedEof cursor
  | some inner =>
    match body input inner with
    | .ok a after => .ok a { after with offset := inner.limit, limit := cursor.limit }
    | .error e after => .error e { after with limit := cursor.limit }

/-- Reads one level deeper. -/
def deeper (body : Read α) : Read α := fun input cursor =>
  match body input { cursor with depth := cursor.depth + 1 } with
  | .ok a after => .ok a { after with depth := after.depth - 1 }
  | .error e after => .error e { after with depth := after.depth - 1 }

/-- The groups of a 32-bit varint that come after `done` groups, at most
`left` of them. Groups after the fifth count for nothing. -/
def varint32Groups : (left done : Nat) → UInt32 → Read UInt32
  | 0, _, _ => throw .malformedVarint
  | left + 1, done, value => do
    let group ← byte
    let value :=
      if done < 5 then value ||| ((group &&& 0x7F).toUInt32 <<< UInt32.ofNat (7 * done)) else value
    if Varint.continues group then varint32Groups left (done + 1) value else return value

/-- A varint of at most ten bytes, of which 32 bits are kept. -/
def varint32 : Read UInt32 := varint32Groups 10 0 0

/-- The groups of a 64-bit varint that come after `done` groups, at most
`left` of them. -/
def varint64Groups : (left done : Nat) → UInt64 → Read UInt64
  | 0, _, _ => throw .malformedVarint
  | left + 1, done, value => do
    let group ← byte
    let value := value ||| ((group &&& 0x7F).toUInt64 <<< UInt64.ofNat (7 * done))
    if Varint.continues group then varint64Groups left (done + 1) value else return value

/-- A varint of at most ten bytes, of which 64 bits are kept. -/
def varint64 : Read UInt64 := varint64Groups 10 0 0

/-- The next key; none at the limit, or when the field number is zero. -/
def key : Read (Option Key) := do
  if ← atEnd then return none
  let found := Key.ofWord (← varint32)
  return if found.number = 0 then none else some found

/-- The byte count of a payload, unless the payload would lie too deep. -/
def payloadLength : Read Nat := fun input cursor =>
  if nestingLimit ≤ cursor.depth then .error .nestingTooDeep cursor
  else (UInt32.toNat <$> varint32) input cursor

/-- Reads a length-delimited payload, one level deeper. -/
def delimited (body : Read α) : Read α := do
  let length ← payloadLength
  deeper (withLimit length body)

/-- A byte count and as many bytes. -/
def lengthPrefixed : Read Bytes := do
  let length ← varint32
  take length.toNat

/-- Reads little-endian words of `width` bytes. -/
def fixed (width : Nat) : Read Nat := do
  let word ← take width
  return ofLittleEndian word.toList

/-- A scalar in the wire form of its type. -/
def scalar : (type : ScalarType) → Read type.Carrier
  | .double => return ⟨UInt64.ofNat (← fixed 8)⟩
  | .float => return ⟨UInt32.ofNat (← fixed 4)⟩
  | .int32 => return (← varint64).toUInt32.toInt32
  | .int64 => return (← varint64).toInt64
  | .uint32 => varint32
  | .uint64 => varint64
  | .sint32 => return Zigzag.decode32 (← varint32)
  | .sint64 => return Zigzag.decode64 (← varint64)
  | .fixed32 => return UInt32.ofNat (← fixed 4)
  | .fixed64 => return UInt64.ofNat (← fixed 8)
  | .sfixed32 => return (UInt32.ofNat (← fixed 4)).toInt32
  | .sfixed64 => return (UInt64.ofNat (← fixed 8)).toInt64
  | .bool => return (← varint64) != 0
  | .string => do
    match (← lengthPrefixed).toText? with
    | some text => return text
    | none => throw .invalidUtf8
  | .bytes => lengthPrefixed

/-- A step that uses up input whenever it asks to be repeated. -/
def Advances (step : Read (Option σ)) : Prop :=
  ∀ input before after next, step input before = .ok (some next) after →
    after.limit - after.offset < before.limit - before.offset

/-- Repeats a step on its own result until it answers `none`. -/
def iterate (step : σ → Read (Option σ)) (advances : ∀ s, Advances (step s)) (s : σ) : Read σ :=
  fun input cursor =>
    match _found : step s input cursor with
    | .error e after => .error e after
    | .ok none after => .ok s after
    | .ok (some next) after => iterate step advances next input after
termination_by _ cursor => cursor.limit - cursor.offset
decreasing_by exact advances _ _ _ _ _ _found

/-- One byte of a varint: `some` if more follow. -/
def varintByte : Read (Option Unit) := do
  return if Varint.continues (← byte) then some () else none

theorem byte_eq_ok {input : Bytes} {before after : Cursor} {b : UInt8}
    (h : byte input before = .ok b after) :
    before.offset < before.limit ∧ after = { before with offset := before.offset + 1 } := by
  unfold byte at h
  split at h
  next inside => cases h; exact ⟨inside.1, rfl⟩
  next => cases h

theorem varintByte_advances : Advances varintByte := by
  intro input before after next h
  simp only [varintByte, bind, ReaderT.bind, EStateM.bind] at h
  split at h
  next b middle hbyte =>
    obtain ⟨hlt, rfl⟩ := byte_eq_ok hbyte
    injection h with _ hafter
    subst hafter
    simp only
    omega
  next => cases h

/-- Passes over the bytes of a varint, however many there are. -/
def skipVarint : Read Unit := iterate (fun _ => varintByte) (fun _ => varintByte_advances) ()

/-- Passes over a value of the given wire type. -/
def skip (wireType : UInt8) : Read Unit :=
  if wireType = WireType.varint.code then skipVarint
  else if wireType = WireType.fixed64.code then discard (take 8)
  else if wireType = WireType.lengthDelimited.code then discard lengthPrefixed
  else if wireType = WireType.fixed32.code then discard (take 4)
  else throw (.unimplementedWireType wireType)

/-- Refuses a field occurrence whose wire type is not the expected one. -/
def expect (key : Key) (expected : UInt8) : Read Unit :=
  if key.wireType = expected then return () else throw (.unexpectedWireType key.number key.wireType)

end Read

end WireCodec
