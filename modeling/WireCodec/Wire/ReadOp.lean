import WireCodec.Wire.Cursor.Packable
import WireCodec.Wire.ScalarType

/-! # Programs of reads

A read operation, or a program of them, as data. Programs nest: a payload may
be read by a program of its own. The steps of a program are the operations it
performs, each with its outcome and the cursor after it, inner ones first.
-/

namespace WireCodec

/-- One thing that can be read with a cursor. -/
inductive ReadOp where
  | value (type : Primitive)
  | key
  | skip (wireType : UInt8)
  | expect (found : Key) (expected : UInt8)
  | packable (found : Key) (natural : UInt8) (element : Primitive)
  | messageField
  | withLimit (length : Nat) (body : List ReadOp)
  | delimited (body : List ReadOp)

/-- What a read operation answers. -/
inductive ReadAnswer where
  | nothing
  | value (type : Primitive) (value : type.Carrier)
  | key (found : Option Key)
  | elements (type : Primitive) (values : List type.Carrier)
  | payload (bytes : Bytes)

/-- An operation that was performed, what came of it, and the cursor after it. -/
structure ReadStep where
  op : ReadOp
  outcome : Except DecodeError ReadAnswer
  cursor : Cursor

namespace Read

/-- A primitive value. -/
def primitive : (type : Primitive) → Read type.Carrier
  | .byte => byte
  | .varint32 => varint32
  | .varint64 => varint64
  | .scalar type => scalar type

theorem consumes_primitive (type : Primitive) : Consumes (primitive type) := by
  cases type with
  | byte => exact consumes_byte
  | varint32 => exact consumes_varint32
  | varint64 => exact consumes_varint64
  | scalar type => exact consumes_scalar type

/-- Appends an element to those read before. -/
def appendElement (type : Primitive) (values : List type.Carrier) : Read (List type.Carrier) :=
  (fun value => values ++ [value]) <$> primitive type

theorem consumes_appendElement (type : Primitive) (values : List type.Carrier) :
    Consumes (appendElement type values) :=
  (consumes_primitive type).map _

end Read

mutual

/-- Performs an operation. -/
def ReadOp.perform : ReadOp → Read ReadAnswer
  | .value type => .value type <$> Read.primitive type
  | .key => .key <$> Read.key
  | .skip wireType => (fun _ => .nothing) <$> Read.skip wireType
  | .expect found expected => (fun _ => .nothing) <$> Read.expect found expected
  | .packable found natural element =>
      .elements element <$> Read.packable found natural (Read.appendElement element)
        (Read.consumes_appendElement element) []
  | .messageField => .payload <$> Read.delimited Read.rest
  | .withLimit length body => (fun _ => .nothing) <$> Read.withLimit length (ReadOp.performAll body)
  | .delimited body => (fun _ => .nothing) <$> Read.delimited (ReadOp.performAll body)

/-- Performs operations in turn, up to the first that fails. -/
def ReadOp.performAll : List ReadOp → Read Unit
  | [] => pure ()
  | op :: rest => do
    discard (ReadOp.perform op)
    ReadOp.performAll rest

end

namespace ReadOp

/-- The step that an operation is. -/
def step (op : ReadOp) (input : Bytes) (cursor : Cursor) : ReadStep :=
  match op.perform input cursor with
  | .ok answer after => ⟨op, .ok answer, after⟩
  | .error e after => ⟨op, .error e, after⟩

mutual

/-- The steps performed inside an operation. -/
def innerSteps : ReadOp → Bytes → Cursor → List ReadStep
  | .withLimit length body, input, cursor =>
    match Read.enter? length cursor with
    | some inner => stepsUntilError body input inner
    | none => []
  | .delimited body, input, cursor =>
    match Read.payloadLength input cursor with
    | .ok length after =>
      match Read.enter? length { after with depth := after.depth + 1 } with
      | some inner => stepsUntilError body input inner
      | none => []
    | .error _ _ => []
  | _, _, _ => []

/-- All steps of a program that ends with the first failure. -/
def stepsUntilError : List ReadOp → Bytes → Cursor → List ReadStep
  | [], _, _ => []
  | op :: rest, input, cursor =>
    let own := step op input cursor
    innerSteps op input cursor ++ own ::
      match own.outcome with
      | .ok _ => stepsUntilError rest input own.cursor
      | .error _ => []

end

/-- All steps of a program that goes on after failures. -/
def session : List ReadOp → Bytes → Cursor → List ReadStep
  | [], _, _ => []
  | op :: rest, input, cursor =>
    let own := step op input cursor
    innerSteps op input cursor ++ own :: session rest input own.cursor

end ReadOp

end WireCodec
