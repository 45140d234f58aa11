import WireCodec.Wire.Buffer
import WireCodec.Wire.Cursor.Packable

/-! # The library under generated code

A type of messages has an encoder, which appends to a buffer, and a decoder,
which reads up to the limit of a cursor. The decoder of a message goes through
the keys up to the limit and leaves what follows each of them to the case of
its number.
-/

namespace WireCodec

/-- A type of messages. -/
class Message (α : Type) where
  /-- Appends the fields of a message to a buffer. -/
  write : α → Buffer → Buffer
  /-- Reads a message up to the limit of the cursor. -/
  read : Read α

namespace Message

variable {α : Type} [Message α]

/-- The encoding of a message. -/
def encode (message : α) : Bytes := (write message Buffer.empty).bytes

/-- The message of an encoding. -/
def decode (input : Bytes) : Except DecodeError α :=
  match (read : Read α) input (.start input) with
  | .ok message _ => .ok message
  | .error e _ => .error e

end Message

/-- Writes a payload, made in a buffer of its own, after its key. -/
def Buffer.writePayloadField (buffer : Buffer) (number : UInt32) (payload : Buffer → Buffer) :
    Buffer :=
  buffer.writeDelimitedField number (payload empty).bytes

/-- Writes a packed run of elements, each by a writer; without elements it writes nothing. -/
def Buffer.writeRunField {α : Type} (buffer : Buffer) (number : UInt32) (items : List α)
    (write : Buffer → α → Buffer) : Buffer :=
  if items.isEmpty then buffer
  else buffer.writePayloadField number fun run => items.foldl write run

variable {α β : Type}

/-- The case of a field number: how its occurrences change what is decoded. -/
structure FieldReader (α : Type) where
  number : UInt32
  read : Key → α → Read α
  steady : ∀ found message, Read.Steady (read found message)

namespace FieldReader

/-- A case for one value in each occurrence. -/
def single (number : UInt32) (wireType : WireType) (value : Read β) (steady : Read.Steady value)
    (set : α → β → α) : FieldReader α where
  number
  read found message := do
    Read.expect found wireType.code
    set message <$> value
  steady _ message := (Read.steady_expect _ _).bind fun _ => steady.map (set message)

/-- A case for single elements or runs of them. -/
def packable (number : UInt32) (natural : WireType) (element : Read β)
    (consumes : Read.Consumes element) (set : α → β → α) : FieldReader α where
  number
  read found message :=
    Read.packable found natural.code (fun message => set message <$> element)
      (fun message => consumes.map (set message)) message
  steady _ _ := Read.steady_packable _ _ _ _ _

end FieldReader

/-- Reads what follows a key, by the first case of its number. -/
def readCase (readers : List (FieldReader α)) (message : α) (found : Key) : Read α :=
  match readers.find? (·.number == found.number) with
  | some reader => reader.read found message
  | none => (fun _ => message) <$> Read.skip found.wireType

theorem steady_readCase (readers : List (FieldReader α)) (message : α) (found : Key) :
    Read.Steady (readCase readers message found) := by
  unfold readCase
  split
  next reader _ => exact reader.steady found message
  next => exact (Read.steady_skip _).map _

/-- Goes through the keys up to the limit or a zero key. -/
def readCases (readers : List (FieldReader α)) (message : α) : Read α :=
  Read.iterate
    (fun message => do
      match ← Read.key with
      | none => return none
      | some found => some <$> readCase readers message found)
    (fun message => Read.advances_key (steady_readCase readers message)) message

end WireCodec
