import WireCodec.Floating.Format
import WireCodec.Value.Sorted
import WireCodec.Wire.ScalarType

/-! # Shapes

The messages of the package `shapes` as types of their own: points, shapes,
chains and the message without fields. Maps are kept in increasing order of
their keys.
-/

namespace WireCodec.Shapes

/-- A color. -/
inductive Color where
  | red
  | green
  | blue
deriving DecidableEq, Repr

namespace Color

/-- All colors, in order of declaration. -/
def all : List Color := [red, green, blue]

/-- The symbol of a color. -/
def symbol : Color → String
  | red => "RED"
  | green => "GREEN"
  | blue => "BLUE"

end Color

/-- A point in the plane. -/
structure Point where
  x : Option Int32
  y : Option Int32
deriving DecidableEq, Repr

/-- A shape. -/
structure Shape where
  name : Option String
  points : List Point
  ids : List UInt32
  tags : List (String × Color)
  origin : Option Point
  color : Option Color
  weights : List Binary64
  flags : List (Bool × String)
  anchors : List (Int64 × Point)
  palette : List Color
  type : Option Bytes
deriving DecidableEq, Repr

/-- A chain of depths, the outermost one first. -/
inductive Chain where
  | last (depth : Option Int32)
  | link (next : Chain) (depth : Option Int32)
deriving DecidableEq, Repr

/-- The message without fields. -/
structure Empty where
deriving DecidableEq, Repr

def Shape.empty : Shape := ⟨none, [], [], [], none, none, [], [], [], [], none⟩

namespace Chain

/-- The depths along a chain, the outermost one first. -/
def depths : Chain → List (Option Int32)
  | last depth => [depth]
  | link next depth => depth :: next.depths

/-- The chain with the given depths. -/
def ofDepths : List (Option Int32) → Chain
  | [] => last none
  | [depth] => last depth
  | depth :: rest => link (ofDepths rest) depth

end Chain

/-- Whether two doubles are equal as numbers: a NaN equals nothing, and the
zeros equal each other. -/
def sameNumber (x y : Binary64) : Bool :=
  !x.isNaN && (x == y || (x.magnitude == 0 && y.magnitude == 0))

/-- Whether two lists of doubles are equal as numbers. -/
def sameNumbers : List Binary64 → List Binary64 → Bool
  | [], [] => true
  | x :: xs, y :: ys => sameNumber x y && sameNumbers xs ys
  | _, _ => false

/-- Whether two shapes are equal, with their weights equal as numbers. -/
def Shape.same (a b : Shape) : Bool :=
  sameNumbers a.weights b.weights && { a with weights := [] } == { b with weights := [] }

end WireCodec.Shapes
