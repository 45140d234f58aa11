import WireCodec.Plan.Build
import WireCodec.Program.Build

/-! # The program of the package of shapes

The schema text of the package, the plans that it is compiled to, and the
program that is generated for them.
-/

namespace WireCodec.Shapes

open Program

/-- The schema text of the package `shapes`. -/
def source : String :=
  "syntax = \"proto2\";\npackage shapes;\n\nenum Color \x7b\n    RED = 0;\n    GREEN = 1;\n" ++
    "    BLUE = -1;\n\x7d\n\nmessage Point \x7b\n    required sint32 x = 1;\n" ++
    "    optional sint32 y = 2;\n\x7d\n\nmessage Shape \x7b\n    optional string name = 1;\n" ++
    "    repeated Point points = 2;\n    repeated uint32 ids = 3;\n" ++
    "    map<string, Color> tags = 4;\n    optional Point origin = 5;\n" ++
    "    optional Color color = 6;\n    repeated double weights = 7 [packed=false];\n" ++
    "    map<bool, string> flags = 8;\n    map<sint64, Point> anchors = 9;\n" ++
    "    repeated Color palette = 10 [packed=true];\n    optional bytes type = 11;\n\x7d\n\n" ++
    "message Chain \x7b\n    optional Chain next = 1;\n    optional int32 depth = 2;\n\x7d\n" ++
    "\nmessage Empty \x7b\x7d\n"

def colorTable : EnumTable := ⟨"Color", [("RED", 0), ("GREEN", 1), ("BLUE", -1)]⟩

def pointPlan : MessagePlan :=
  .ofFields "Point" false
    [(⟨"x", 1, .detached "sint32", .required, none, false⟩, .scalar .sint32),
      (⟨"y", 2, .detached "sint32", .optional, none, false⟩, .scalar .sint32)]

def shapePlan : MessagePlan :=
  .ofFields "Shape" false
    [(⟨"name", 1, .detached "string", .optional, none, false⟩, .scalar .string),
      (⟨"points", 2, .detached "Point", .repeated, none, false⟩, .message "Point"),
      (⟨"ids", 3, .detached "uint32", .repeated, none, false⟩, .scalar .uint32),
      (⟨"tags", 4, .detached "Shape.TagsEntry", .repeated, none, true⟩,
        .message "Shape.TagsEntry"),
      (⟨"origin", 5, .detached "Point", .optional, none, false⟩, .message "Point"),
      (⟨"color", 6, .detached "Color", .optional, none, false⟩, .enum "Color"),
      (⟨"weights", 7, .detached "double", .repeated, some false, false⟩, .scalar .double),
      (⟨"flags", 8, .detached "Shape.FlagsEntry", .repeated, none, true⟩,
        .message "Shape.FlagsEntry"),
      (⟨"anchors", 9, .detached "Shape.AnchorsEntry", .repeated, none, true⟩,
        .message "Shape.AnchorsEntry"),
      (⟨"palette", 10, .detached "Color", .repeated, some true, false⟩, .enum "Color"),
      (⟨"type", 11, .detached "bytes", .optional, none, false⟩, .scalar .bytes)]

/-- The plan for the entries of a map. -/
def entryPlan (name : String) (key : Spanned String) (keyType : ScalarType)
    (value : Spanned String) (type : ValueType) : MessagePlan :=
  .ofFields name true [(.ofEntry keyField 1 key, .scalar keyType),
    (.ofEntry valueField 2 value, type)]

def tagPlan : MessagePlan :=
  entryPlan "Shape.TagsEntry" (.detached "string") .string (.detached "Color") (.enum "Color")

def flagPlan : MessagePlan :=
  entryPlan "Shape.FlagsEntry" (.detached "bool") .bool (.detached "string") (.scalar .string)

def anchorPlan : MessagePlan :=
  entryPlan "Shape.AnchorsEntry" (.detached "sint64") .sint64 (.detached "Point")
    (.message "Point")

def chainPlan : MessagePlan :=
  .ofFields "Chain" false
    [(⟨"next", 1, .detached "Chain", .optional, none, false⟩, .message "Chain"),
      (⟨"depth", 2, .detached "int32", .optional, none, false⟩, .scalar .int32)]

def emptyPlan : MessagePlan := .ofFields "Empty" false []

/-- The plans of the package `shapes`. -/
def plans : PlanSet :=
  ⟨some "shapes", [colorTable],
    [pointPlan, shapePlan, tagPlan, flagPlan, anchorPlan, chainPlan, emptyPlan]⟩

/-- The program that is generated for the package. -/
def program : Program := plans.program

/-! The declarations of the messages. -/

def Point.item : StructItem := pointPlan.structItem plans

def Shape.item : StructItem := shapePlan.structItem plans

def Chain.item : StructItem := chainPlan.structItem plans

def Empty.item : StructItem := emptyPlan.structItem plans

end WireCodec.Shapes
