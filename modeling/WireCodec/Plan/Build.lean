import WireCodec.Plan.Basic
import WireCodec.Schema.Compile
import WireCodec.Schema.Plain

/-! # Building plans

A plan is built from a schema that passes the check. A repeated field of a
packable type is packed unless its declaration says otherwise, and accepts
both forms in any case.
-/

namespace WireCodec

/-- Whether a field of the given type is written as packed runs. -/
def PlainField.isPacked (field : PlainField) (type : ValueType) : Bool :=
  field.cardinality = .repeated && !field.isMapEntry && type.packable && field.packed.getD true

/-- The form in which a field of the given type is written. -/
def PlainField.form (field : PlainField) (type : ValueType) : EncodeForm :=
  if field.isMapEntry then .mapEntries field.type.node
  else if field.isPacked type then .packed
  else if field.cardinality = .repeated then .each
  else .single

/-- The wire type under which a field of the given type is written. -/
def PlainField.writtenAs (field : PlainField) (type : ValueType) : WireType :=
  if field.isMapEntry || field.isPacked type then .lengthDelimited else type.wireType

/-- What becomes of the occurrences of a field of the given type. -/
def PlainField.action (field : PlainField) (type : ValueType) : DecodeAction :=
  if field.isMapEntry then .mergeEntry field.type.node
  else if field.cardinality = .repeated then
    if type.packable then .appendPackable type.wireType else .append
  else .assign

/-- The plan for a field of the given type. -/
def PlainField.plan (field : PlainField) (type : ValueType) : FieldPlan :=
  ⟨field.name, field.number, field.cardinality, type, field.isPacked type, field.isMapEntry⟩

/-- A message plan with one more field. -/
def MessagePlan.addField (plan : MessagePlan) (field : PlainField) (type : ValueType) :
    MessagePlan :=
  let index := plan.fields.length
  { plan with
    fields := plan.fields ++ [field.plan type]
    steps := plan.steps ++
      [⟨index, ⟨field.number, field.writtenAs type⟩, field.form type⟩]
    arms := plan.arms ++ [⟨field.number, index, type.wireType, field.action type⟩]
    required := if field.cardinality = .required then plan.required ++ [index] else plan.required }

/-- The plan that a list of resolved fields is laid out as. -/
def MessagePlan.ofFields (name : String) (synthetic : Bool)
    (fields : List (PlainField × ValueType)) : MessagePlan :=
  fields.foldl (fun plan field => plan.addField field.1 field.2) ⟨name, synthetic, [], [], [], []⟩

/-- The errors and the results of a list of computations. -/
def gather {ε α : Type} : List (Except ε α) → List ε × List α
  | [] => ([], [])
  | .ok a :: rest => ((gather rest).1, a :: (gather rest).2)
  | .error e :: rest => (e :: (gather rest).1, (gather rest).2)

/-- The plan for a message, or all types in it that stand for nothing. -/
def PlainMessage.plan (message : PlainMessage) (index : TypeIndex) :
    Except (List CheckError) MessagePlan :=
  let resolved := message.fields.map fun field =>
    (fun type => (field, type)) <$> index.resolve field.type.node field.type.span
  match gather resolved with
  | ([], fields) =>
    .ok (.ofFields message.name message.synthetic fields)
  | (errors, _) => .error errors

/-- The names a type may be referred to by when map fields are plain. -/
def Schema.plainIndex (schema : Schema) : TypeIndex :=
  (schema.plain.filter (·.synthetic)).foldl (fun index message => index.addMessage message.name)
    (.ofSchema schema)

/-- The plans for a schema, or everything that is wrong with it. -/
def Schema.build (schema : Schema) : Except (List CheckError) PlanSet :=
  match schema.check with
  | [] =>
    match gather (schema.plain.map (·.plan schema.plainIndex)) with
    | ([], messages) => .ok ⟨schema.package.map (·.node), schema.enumTables, messages⟩
    | (errors, _) => .error errors.flatten
  | errors => .error errors

end WireCodec
