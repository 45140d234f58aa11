import WireCodec.Plan.Basic

/-! # Inspecting plans

A table of the enums and the messages of a set of plans: the values of each
enum, and for each field its number, its type and the key it is written under.
-/

namespace WireCodec

/-- A text with blanks behind it up to a width. -/
def padRight (width : Nat) (text : String) : String :=
  text ++ String.ofList (List.replicate (width - text.length) ' ')

/-- A text with blanks before it up to a width. -/
def padLeft (width : Nat) (text : String) : String :=
  String.ofList (List.replicate (width - text.length) ' ') ++ text

/-- How often a field may occur, in a word. -/
def FieldPlan.occurrence (field : FieldPlan) : String :=
  match field.cardinality, field.isMapEntry with
  | .required, _ => "required"
  | .optional, _ => "optional"
  | .repeated, true => "map"
  | .repeated, false => "repeated"

/-- The line of a field and the step that writes it. -/
def fieldLine (field : FieldPlan) (step : EncodeStep) : String :=
  let columns :=
    [padRight 20 field.name, padRight 20 field.type.name, padRight 9 field.occurrence,
      padRight 17 step.tag.wireType.name, s!"key={step.tag.key.word}"]
  let packed := if field.packed then "  packed" else ""
  s!"  {padLeft 5 (toString field.number)}  " ++ " ".intercalate columns ++ packed ++ "\n"

/-- The line of an enum value. -/
def valueLine (symbol : String) (number : Int32) : String :=
  s!"  {padLeft 5 (toString number.toInt)}  {symbol}\n"

/-- The lines of an enum. -/
def EnumTable.lines (table : EnumTable) : String :=
  s!"enum {table.name}\n" ++
    String.join (table.values.map fun (symbol, number) => valueLine symbol number) ++ "\n"

/-- The lines of a message. -/
def MessagePlan.lines (plan : MessagePlan) : String :=
  let kind := if plan.synthetic then "map entry" else "message"
  s!"{kind} {plan.name}\n" ++
    String.join ((plan.fields.zip plan.steps).map fun (field, step) => fieldLine field step) ++
    "\n"

/-- The table of a set of plans. -/
def PlanSet.table (set : PlanSet) : String :=
  let head :=
    match set.package with
    | some package => s!"package {package}\n\n"
    | none => ""
  head ++ String.join (set.enums.map EnumTable.lines) ++
    String.join (set.messages.map MessagePlan.lines)

end WireCodec
