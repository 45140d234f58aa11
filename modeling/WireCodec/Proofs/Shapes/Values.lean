import WireCodec.Proofs.Program.Typed
import WireCodec.Proofs.Shapes.Plans
import WireCodec.Shapes.Decode

/-! # Message values of shapes

The message value that each point, shape and chain stands for, and that the
fields that hold it stand for this message. What is found in the fields of a
struct has the message value that the struct stands for.
-/

namespace WireCodec.Shapes

open Program

variable {μ : Type} {nests : String → μ → Record → Prop}

/-! ## Colors -/

/-- A color as a value. -/
def Color.value (color : Color) : Value := .enum color.symbol

theorem represents_color : Color.form.Represents plans nests (.enum "Color") Color.value := by
  have htable : plans.enum? "Color" = some colorTable := rfl
  refine represents_enum htable ?_ ?_ ?_
  · rintro (_ | _ | _)
    · exact ⟨0, rfl⟩
    · exact ⟨1, rfl⟩
    · exact ⟨-1, rfl⟩
  · intro number found hsymbol
    obtain ⟨⟨_, value⟩, hvalue, rfl⟩ := Option.map_eq_some_iff.mp hsymbol
    have hmem : (_, value) ∈ Color.all.map fun color : Color => (color.symbol, color.number) :=
      List.mem_of_find?_eq_some hvalue
    obtain ⟨color, hcolor, heq⟩ := List.mem_map.mp hmem
    exact ⟨color, hcolor, congrArg Prod.fst heq⟩
  · rintro (_ | _ | _) (_ | _ | _) <;> decide

/-! ## Points -/

namespace Point

/-- What the message value of a point has for each field. -/
def values (point : Point) : List (String × Option Value) :=
  [("x", point.x.map .int32), ("y", point.y.map .int32)]

/-- The message value of a point. -/
def record (point : Point) : Record := .ofFields point.values

/-- A point as a value. -/
def value (point : Point) : Value := .message point.record

theorem givenBy_values (point : Point) : pointPlan.GivenBy point.values :=
  MessagePlan.givenBy_of_names ["x", "y"] rfl (by decide) (by decide)

theorem stand_fields (point : Point) : point.fields.Stand plans nests pointPlan point.record := by
  refine stand_ofFields point.givenBy_values ?_
  unfold fields
  refine .cons ⟨rfl, _, List.mem_of_getElem? (i := 0) rfl, ?x⟩ <|
    .cons ⟨rfl, _, List.mem_of_getElem? (i := 1) rfl, ?y⟩ .nil
  case x => exact stands_ofOption (represents_scalar .sint32) rfl (by decide) point.x
  case y => exact stands_ofOption (represents_scalar .sint32) rfl (by decide) point.y

theorem record_of_stand {fields : Fields μ} {record : Record}
    (h : fields.Stand plans nests pointPlan record) : record = (ofFields fields).record := by
  have hidentifiers := distinctNames_plans.fields pointPlan (by simp [plans])
  refine h.eq_ofFields (givenBy_values _) ?_
  unfold values
  refine List.forall_mem_cons.mpr ⟨?x, List.forall_mem_cons.mpr ⟨?y, by simp⟩⟩
  case x =>
    exact value?_of_stand h hidentifiers (List.mem_of_getElem? (i := 0) rfl)
      (represents_scalar .sint32) rfl (by decide)
  case y =>
    exact value?_of_stand h hidentifiers (List.mem_of_getElem? (i := 1) rfl)
      (represents_scalar .sint32) rfl (by decide)

end Point

/-! ## Shapes -/

/-- A message within a shape stands for a point. -/
def PointStands (name : String) (point : Point) (record : Record) : Prop :=
  name = "Point" ∧ record = point.record

theorem represents_point :
    Form.message.Represents plans PointStands (.message "Point") Point.value :=
  represents_message fun _ _ => ⟨And.right, fun h => ⟨rfl, h⟩⟩

namespace Shape

/-- What the message value of a shape has for each field. -/
def values (shape : Shape) : List (String × Option Value) :=
  [("anchors", Value.ofEntries (shape.anchors.map fun anchor => (.int64 anchor.1, anchor.2.value))),
    ("color", shape.color.map Color.value),
    ("flags", Value.ofEntries (shape.flags.map fun flag => (.bool flag.1, .string flag.2))),
    ("ids", Value.ofItems (shape.ids.map .uint32)),
    ("name", shape.name.map .string),
    ("origin", shape.origin.map Point.value),
    ("palette", Value.ofItems (shape.palette.map Color.value)),
    ("points", Value.ofItems (shape.points.map Point.value)),
    ("tags", Value.ofEntries (shape.tags.map fun tag => (.string tag.1, tag.2.value))),
    ("type", shape.type.map .bytes),
    ("weights", Value.ofItems (shape.weights.map .double))]

/-- The message value of a shape. -/
def record (shape : Shape) : Record := .ofFields shape.values

theorem givenBy_values (shape : Shape) : shapePlan.GivenBy shape.values :=
  MessagePlan.givenBy_of_names ["anchors", "color", "flags", "ids", "name", "origin", "palette",
    "points", "tags", "type", "weights"] rfl (by decide) (by decide)

theorem isEntry_tagPlan : tagPlan.IsEntry .string (.enum "Color") := ⟨rfl, rfl, rfl⟩

theorem isEntry_flagPlan : flagPlan.IsEntry .bool (.scalar .string) := ⟨rfl, rfl, rfl⟩

theorem isEntry_anchorPlan : anchorPlan.IsEntry .sint64 (.message "Point") := ⟨rfl, rfl, rfl⟩

theorem stand_fields (shape : Shape) :
    shape.fields.Stand plans PointStands shapePlan shape.record := by
  refine stand_ofFields shape.givenBy_values ?_
  unfold fields
  refine .cons ⟨rfl, _, List.mem_of_getElem? (i := 4) rfl, ?name⟩ <|
    .cons ⟨rfl, _, List.mem_of_getElem? (i := 7) rfl, ?points⟩ <|
    .cons ⟨rfl, _, List.mem_of_getElem? (i := 3) rfl, ?ids⟩ <|
    .cons ⟨rfl, _, List.mem_of_getElem? (i := 8) rfl, ?tags⟩ <|
    .cons ⟨rfl, _, List.mem_of_getElem? (i := 5) rfl, ?origin⟩ <|
    .cons ⟨rfl, _, List.mem_of_getElem? (i := 1) rfl, ?color⟩ <|
    .cons ⟨rfl, _, List.mem_of_getElem? (i := 10) rfl, ?weights⟩ <|
    .cons ⟨rfl, _, List.mem_of_getElem? (i := 2) rfl, ?flags⟩ <|
    .cons ⟨rfl, _, List.mem_of_getElem? (i := 0) rfl, ?anchors⟩ <|
    .cons ⟨rfl, _, List.mem_of_getElem? (i := 6) rfl, ?palette⟩ <|
    .cons ⟨rfl, _, List.mem_of_getElem? (i := 9) rfl, ?type⟩ .nil
  case name => exact stands_ofOption (represents_scalar .string) rfl (by decide) shape.name
  case points => exact stands_ofList represents_point rfl rfl shape.points
  case ids => exact stands_ofList (represents_scalar .uint32) rfl rfl shape.ids
  case tags =>
    exact stands_ofMap (fun _ => rfl) represents_color rfl rfl rfl isEntry_tagPlan shape.tags
  case origin => exact stands_ofOption represents_point rfl (by decide) shape.origin
  case color => exact stands_ofOption represents_color rfl (by decide) shape.color
  case weights => exact stands_ofList (represents_scalar .double) rfl rfl shape.weights
  case flags =>
    exact stands_ofMap (fun _ => rfl) (represents_scalar .string) rfl rfl rfl isEntry_flagPlan
      shape.flags
  case anchors =>
    exact stands_ofMap (fun _ => rfl) represents_point rfl rfl rfl isEntry_anchorPlan shape.anchors
  case palette => exact stands_ofList represents_color rfl rfl shape.palette
  case type => exact stands_ofOption (represents_scalar .bytes) rfl (by decide) shape.type

theorem record_of_stand {fields : Fields Point} {record : Record}
    (h : fields.Stand plans PointStands shapePlan record) : record = (ofFields fields).record := by
  have hidentifiers := distinctNames_plans.fields shapePlan (by simp [plans])
  refine h.eq_ofFields (givenBy_values _) ?_
  unfold values
  simp only [List.forall_mem_cons]
  refine ⟨?anchors, ?color, ?flags, ?ids, ?name, ?origin, ?palette, ?points, ?tags, ?type,
    ?weights, by simp⟩
  case name =>
    exact value?_of_stand h hidentifiers (List.mem_of_getElem? (i := 0) rfl)
      (represents_scalar .string) rfl (by decide)
  case points =>
    exact elements_of_stand h hidentifiers (List.mem_of_getElem? (i := 1) rfl) represents_point
      rfl rfl
  case ids =>
    exact elements_of_stand h hidentifiers (List.mem_of_getElem? (i := 2) rfl)
      (represents_scalar .uint32) rfl rfl
  case tags =>
    exact entries_of_stand h hidentifiers (List.mem_of_getElem? (i := 3) rfl) (fun _ => rfl)
      represents_color rfl rfl rfl isEntry_tagPlan
  case origin =>
    exact value?_of_stand h hidentifiers (List.mem_of_getElem? (i := 4) rfl) represents_point
      rfl (by decide)
  case color =>
    exact value?_of_stand h hidentifiers (List.mem_of_getElem? (i := 5) rfl) represents_color
      rfl (by decide)
  case weights =>
    exact elements_of_stand h hidentifiers (List.mem_of_getElem? (i := 6) rfl)
      (represents_scalar .double) rfl rfl
  case flags =>
    exact entries_of_stand h hidentifiers (List.mem_of_getElem? (i := 7) rfl) (fun _ => rfl)
      (represents_scalar .string) rfl rfl rfl isEntry_flagPlan
  case anchors =>
    exact entries_of_stand h hidentifiers (List.mem_of_getElem? (i := 8) rfl) (fun _ => rfl)
      represents_point rfl rfl rfl isEntry_anchorPlan
  case palette =>
    exact elements_of_stand h hidentifiers (List.mem_of_getElem? (i := 9) rfl) represents_color
      rfl rfl
  case type =>
    exact value?_of_stand h hidentifiers (List.mem_of_getElem? (i := 10) rfl)
      (represents_scalar .bytes) rfl (by decide)

end Shape

/-! ## Chains -/

namespace Chain

/-- What the message value of a chain has for each field, given that of the rest of it. -/
def valuesWith (next : Option Record) (depth : Option Int32) : List (String × Option Value) :=
  [("depth", depth.map .int32), ("next", next.map .message)]

/-- The message value of a chain. -/
def record : Chain → Record
  | last depth => .ofFields (valuesWith none depth)
  | link next depth => .ofFields (valuesWith (some next.record) depth)

theorem givenBy_valuesWith (next : Option Record) (depth : Option Int32) :
    chainPlan.GivenBy (valuesWith next depth) :=
  MessagePlan.givenBy_of_names ["depth", "next"] rfl (by decide) (by decide)

theorem stand_fieldsWith {next : Option μ} {found : Option Record}
    (h : Option.Rel (nests "Chain") next found) (depth : Option Int32) :
    (fieldsWith next depth).Stand plans nests chainPlan (.ofFields (valuesWith found depth)) := by
  refine stand_ofFields (givenBy_valuesWith found depth) ?_
  unfold fieldsWith
  refine .cons ⟨rfl, _, List.mem_of_getElem? (i := 1) rfl, ?next⟩ <|
    .cons ⟨rfl, _, List.mem_of_getElem? (i := 0) rfl, ?depth⟩ .nil
  case next =>
    refine .option rfl (by decide) ?_
    cases h with
    | none => exact .none
    | some hnext => exact .some (.message hnext)
  case depth => exact stands_ofOption (represents_scalar .int32) rfl (by decide) depth

/-- A message within a chain stands for a chain. -/
def Stands (name : String) (chain : Chain) (record : Record) : Prop :=
  name = "Chain" ∧ record = chain.record

theorem record_of_stand {fields : Fields Chain} {record : Record}
    (h : fields.Stand plans Stands chainPlan record) : record = (ofFields fields).record := by
  have hidentifiers := distinctNames_plans.fields chainPlan (by simp [plans])
  have hnext : Record.value? record "next" =
      (fields.value? "next" .message).map fun next => .message next.record :=
    value?_of_stand h hidentifiers (List.mem_of_getElem? (i := 0) rfl)
      (represents_message fun _ _ => ⟨And.right, fun h => ⟨rfl, h⟩⟩) rfl (by decide)
  have hdepth : Record.value? record "depth" =
      (fields.value? "depth" (.scalar .int32)).map Value.int32 :=
    value?_of_stand h hidentifiers (List.mem_of_getElem? (i := 1) rfl)
      (represents_scalar .int32) rfl (by decide)
  unfold ofFields
  cases hfound : fields.value? "next" .message with
  | none =>
      rw [hfound] at hnext
      exact h.eq_ofFields (givenBy_valuesWith none _) (by simp [valuesWith, hnext, hdepth])
  | some next =>
      rw [hfound] at hnext
      exact h.eq_ofFields (givenBy_valuesWith (some next.record) _)
        (by simp [valuesWith, hnext, hdepth])

end Chain

/-! ## The message without fields -/

/-- The message value of the message without fields. -/
def Empty.record (_ : Empty) : Record := []

theorem Empty.givenBy_nil : emptyPlan.GivenBy [] :=
  MessagePlan.givenBy_of_names [] rfl (by decide) (by decide)

theorem Empty.stand_nil (message : Empty) :
    Fields.Stand plans nests emptyPlan [] message.record :=
  stand_ofFields givenBy_nil .nil

end WireCodec.Shapes
