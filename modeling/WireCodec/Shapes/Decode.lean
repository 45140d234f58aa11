import WireCodec.Shapes.Encode

/-! # Reading shapes

Points, shapes and chains are what is found in the fields that the decoders of
the program read. The messages in a chain are chains, as many levels deep as
the nesting limit admits.
-/

namespace WireCodec.Shapes

open Program

variable {μ : Type}

/-- The color of a number. -/
def Color.ofNumber? (number : Int32) : Option Color :=
  (colorTable.item.variant? number).bind fun variant =>
    Color.all.find? (variantIdentifier ·.symbol == variant)

/-- The decoder for messages of a struct that has none in it. -/
def noMessages (name : String) : Read PEmpty := throw (.danglingReference name)

namespace Point

/-- The point that fields hold. -/
def ofFields (fields : Fields μ) : Point where
  x := fields.value? "x" (.scalar .sint32)
  y := fields.value? "y" (.scalar .sint32)

def read : Read Point := ofFields <$> item.decodeFrom program noMessages

end Point

namespace Shape

/-- The shape that fields hold. -/
def ofFields (fields : Fields Point) : Shape where
  name := fields.value? "name" (.scalar .string)
  points := fields.elements "points" .message
  ids := fields.elements "ids" (.scalar .uint32)
  tags := fields.entries "tags" Color.form .string
  origin := fields.value? "origin" .message
  color := fields.value? "color" Color.form
  weights := fields.elements "weights" (.scalar .double)
  flags := fields.entries "flags" (.scalar .string) .bool
  anchors := fields.entries "anchors" .message .sint64
  palette := fields.elements "palette" Color.form
  type := fields.value? "r#type" (.scalar .bytes)

def read : Read Shape := ofFields <$> item.decodeFrom program fun _ => Point.read

end Shape

namespace Chain

/-- The chain that fields hold. -/
def ofFields (fields : Fields Chain) : Chain :=
  let depth := fields.value? "depth" (.scalar .int32)
  match fields.value? "next" .message with
  | some next => link next depth
  | none => last depth

/-- Reads a chain that may nest a number of levels deep. -/
def readWithin : Nat → Read Chain
  | 0 => ofFields <$> item.decodeFrom program fun _ => throw .nestingTooDeep
  | levels + 1 => ofFields <$> item.decodeFrom program fun _ => readWithin levels

def read : Read Chain := fun input cursor => readWithin (nestingLimit - cursor.depth) input cursor

end Chain

def Empty.read : Read Empty := (fun _ => ⟨⟩) <$> item.decodeFrom program noMessages

instance : Message Point := ⟨Point.write, Point.read⟩

instance : Message Shape := ⟨Shape.write, Shape.read⟩

instance : Message Chain := ⟨Chain.write, Chain.read⟩

instance : Message Empty := ⟨Empty.write, Empty.read⟩

/-- Whether a shape is read back from its encoding. -/
def Shape.survives (shape : Shape) : Bool :=
  match Message.decode (Message.encode shape) with
  | .ok again => shape.same again
  | .error _ => false

end WireCodec.Shapes
