import WireCodec.Program.Typed
import WireCodec.Shapes.Basic
import WireCodec.Shapes.Plans

/-! # Writing shapes

The fields that hold points, shapes and chains, and their encoders: those that
the program of the package has for them.
-/

namespace WireCodec.Shapes

open Program

variable {μ : Type}

/-- The number of a color on the wire. -/
def Color.number (color : Color) : Int32 :=
  (colorTable.item.number? (variantIdentifier color.symbol)).getD 0

/-- How colors are held. -/
def Color.form : Form μ Color :=
  .enum (typeIdentifier "Color") Color.all fun color => variantIdentifier color.symbol

namespace Point

/-- The fields that hold a point. -/
def fields (point : Point) : Fields μ :=
  [("x", .ofOption (.scalar .sint32) point.x),
    ("y", .ofOption (.scalar .sint32) point.y)]

def write (point : Point) : Buffer → Buffer := item.encodeTo program PEmpty.elim point.fields

end Point

namespace Shape

/-- The fields that hold a shape. -/
def fields (shape : Shape) : Fields Point :=
  [("name", .ofOption (.scalar .string) shape.name),
    ("points", .ofList .message shape.points),
    ("ids", .ofList (.scalar .uint32) shape.ids),
    ("tags", .ofMap Color.form .string shape.tags),
    ("origin", .ofOption .message shape.origin),
    ("color", .ofOption Color.form shape.color),
    ("weights", .ofList (.scalar .double) shape.weights),
    ("flags", .ofMap (.scalar .string) .bool shape.flags),
    ("anchors", .ofMap .message .int64 shape.anchors),
    ("palette", .ofList Color.form shape.palette),
    ("r#type", .ofOption (.scalar .bytes) shape.type)]

def write (shape : Shape) : Buffer → Buffer := item.encodeTo program Point.write shape.fields

end Shape

namespace Chain

/-- The fields that hold a chain, given the rest of it. -/
def fieldsWith (next : Option μ) (depth : Option Int32) : Fields μ :=
  [("next", .ofOption .message next), ("depth", .ofOption (.scalar .int32) depth)]

/-- The rest of a chain is held as what writes it. -/
def write : Chain → Buffer → Buffer
  | last depth => item.encodeTo program (fun write => write) (fieldsWith none depth)
  | link next depth =>
    item.encodeTo program (fun write => write) (fieldsWith (some next.write) depth)

end Chain

def Empty.write (_ : Empty) : Buffer → Buffer := item.encodeTo program PEmpty.elim []

end WireCodec.Shapes
