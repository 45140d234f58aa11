import WireCodec.Bytes
import WireCodec.Wire.ScalarType

/-! # Write buffers

A buffer keeps its storage when it is reset, so bytes of an earlier use may
lie beyond its length. Each write reserves room first, by doubling the
capacity until the bytes fit, and then stores the wire form of its value.
-/

namespace WireCodec

/-- Storage of a certain capacity, of which the first `length` bytes count. -/
structure Buffer where
  storage : Bytes
  length : Nat
deriving Repr

namespace Buffer

/-- The capacity of a buffer that is made without a size in mind. -/
def initialCapacity : Nat := 64

/-- An empty buffer; even one made for no bytes has room for one. -/
def withCapacity (capacity : Nat) : Buffer := ⟨Array.replicate (max capacity 1) 0, 0⟩

def empty : Buffer := withCapacity initialCapacity

def capacity (buffer : Buffer) : Nat := buffer.storage.size

/-- The bytes written since the buffer was made or reset. -/
def bytes (buffer : Buffer) : Bytes := buffer.storage.extract 0 buffer.length

/-- Forgets the bytes and keeps the storage. -/
def reset (buffer : Buffer) : Buffer := { buffer with length := 0 }

/-- The first of `capacity`, `2 * capacity`, `4 * capacity`, … that holds
`needed` bytes. -/
def doubleUntil (needed capacity : Nat) : Nat :=
  if needed ≤ capacity ∨ capacity = 0 then capacity else doubleUntil needed (2 * capacity)
termination_by needed - capacity

/-- Makes room for `extra` more bytes. -/
def reserve (buffer : Buffer) (extra : Nat) : Buffer :=
  let enough := doubleUntil (buffer.length + extra) buffer.capacity
  { buffer with storage := buffer.storage ++ Array.replicate (enough - buffer.capacity) 0 }

/-- Stores one byte in room that was reserved. -/
def store (buffer : Buffer) (byte : UInt8) : Buffer :=
  ⟨buffer.storage.setIfInBounds buffer.length byte, buffer.length + 1⟩

def storeAll (buffer : Buffer) (form : List UInt8) : Buffer := form.foldl store buffer

/-- Reserves exactly as much as a wire form takes, and stores it. -/
def append (buffer : Buffer) (form : List UInt8) : Buffer :=
  (buffer.reserve form.length).storeAll form

def writeByte (buffer : Buffer) (byte : UInt8) : Buffer := buffer.append [byte]

def writeRaw (buffer : Buffer) (payload : Bytes) : Buffer := buffer.append payload.toList

/-- Writes a varint of at most five bytes, and reserves five in any case. -/
def writeVarint32 (buffer : Buffer) (value : UInt32) : Buffer :=
  (buffer.reserve 5).storeAll (Varint.encode value.toNat)

def writeVarint64 (buffer : Buffer) (value : UInt64) : Buffer :=
  buffer.append (Varint.encode value.toNat)

def writeKey (buffer : Buffer) (key : Key) : Buffer := buffer.writeVarint32 key.word

/-- Writes a byte count, of which 32 bits are kept, and the bytes. -/
def writeDelimited (buffer : Buffer) (payload : Bytes) : Buffer :=
  (buffer.writeVarint32 (UInt32.ofNat payload.size)).writeRaw payload

/-- Writes a field occurrence whose value is a delimited payload. -/
def writeDelimitedField (buffer : Buffer) (number : UInt32) (payload : Bytes) : Buffer :=
  (buffer.writeKey ⟨number, WireType.lengthDelimited.code⟩).writeDelimited payload

/-- Writes a scalar in the wire form of its type. -/
def writeScalar (buffer : Buffer) : (type : ScalarType) → type.Carrier → Buffer
  | .double, x => buffer.append (littleEndian 8 x.bits.toNat)
  | .float, x => buffer.append (littleEndian 4 x.bits.toNat)
  | .int32, x => buffer.writeVarint64 x.toInt64.toUInt64
  | .int64, x => buffer.writeVarint64 x.toUInt64
  | .uint32, x => buffer.writeVarint32 x
  | .uint64, x => buffer.writeVarint64 x
  | .sint32, x => buffer.writeVarint32 (Zigzag.encode32 x)
  | .sint64, x => buffer.writeVarint64 (Zigzag.encode64 x)
  | .fixed32, x => buffer.append (littleEndian 4 x.toNat)
  | .fixed64, x => buffer.append (littleEndian 8 x.toNat)
  | .sfixed32, x => buffer.append (littleEndian 4 x.toUInt32.toNat)
  | .sfixed64, x => buffer.append (littleEndian 8 x.toUInt64.toNat)
  | .bool, x => buffer.writeByte (if x then 1 else 0)
  | .string, x => buffer.writeDelimited (Bytes.ofText x)
  | .bytes, x => buffer.writeDelimited x

/-- Writes a primitive value. -/
def writePrimitive (buffer : Buffer) : (type : Primitive) → type.Carrier → Buffer
  | .byte, x => buffer.writeByte x
  | .varint32, x => buffer.writeVarint32 x
  | .varint64, x => buffer.writeVarint64 x
  | .scalar type, x => buffer.writeScalar type x

/-- Writes a field occurrence that holds a packed run of scalars, or nothing
when there are none. -/
def writePackedField (buffer : Buffer) (number : UInt32) (type : ScalarType)
    (values : List type.Carrier) : Buffer :=
  if values.isEmpty then buffer
  else
    let run := values.foldl (fun run value => run.writeScalar type value) empty
    buffer.writeDelimitedField number run.bytes

end Buffer

/-- One thing that can be done to a buffer. -/
inductive WriteOp where
  | value (type : Primitive) (value : type.Carrier)
  | raw (payload : Bytes)
  | delimited (payload : Bytes)
  | key (written : Key)
  | delimitedField (number : UInt32) (payload : Bytes)
  | messageField (number : UInt32) (encoded : Bytes)
  | packedField (number : UInt32) (elements : List WriteOp)
  | reset

namespace WriteOp

mutual

/-- The buffer after an operation. A packed run is made by the operations for
its elements, in a buffer of its own; without elements there is no run. -/
def apply (buffer : Buffer) : WriteOp → Buffer
  | value type x => buffer.writePrimitive type x
  | raw payload => buffer.writeRaw payload
  | delimited payload => buffer.writeDelimited payload
  | key written => buffer.writeKey written
  | delimitedField number payload => buffer.writeDelimitedField number payload
  | messageField number encoded =>
      buffer.writeDelimitedField number (Buffer.empty.writeRaw encoded).bytes
  | packedField _ [] => buffer
  | packedField number (first :: rest) =>
      buffer.writeDelimitedField number (applyAll (apply .empty first) rest).bytes
  | reset => buffer.reset

/-- The buffer after a sequence of operations. -/
def applyAll (buffer : Buffer) : List WriteOp → Buffer
  | [] => buffer
  | op :: rest => applyAll (op.apply buffer) rest

end

/-- The buffers after each operation of a sequence. -/
def history (buffer : Buffer) : List WriteOp → List Buffer
  | [] => []
  | op :: rest => op.apply buffer :: history (op.apply buffer) rest

end WriteOp

end WireCodec
