import WireCodec.Proofs.Program.Decode
import WireCodec.Proofs.Shapes.Values

/-! # Types that agree with plans

A type of messages agrees with a plan if it decodes and encodes what the plan
does, message values standing for the typed messages. The types of shapes,
which run the program of the package, agree with the plans that its schema text
is compiled to.

A hash table goes through its entries in an order of its own, so a shape whose
maps are hash tables is written in the order of some listing of it.
-/

namespace WireCodec

/-- A type of messages decodes and encodes as the plan of a name does. -/
structure PlanSet.Agrees {α : Type} [Message α] (set : PlanSet) (name : String)
    (plan : MessagePlan) (record : α → Record) : Prop where
  declared : set.declared? name = some plan
  decode : ∀ input, set.decode plan input = record <$> Message.decode input
  encode : ∀ message, set.encode plan (record message) = .ok (Message.encode message)

/-- A type of messages decodes as a plan does if both reads do the same. -/
theorem PlanSet.decode_of_agree {α : Type} [Message α] {set : PlanSet} {plan : MessagePlan}
    {record : α → Record} {input : Bytes}
    (hagree : Read.Agree Eq (fun message found => found = record message)
      ((Message.read : Read α) input (.start input))
      (readMessageWithin set nestingLimit plan input (.start input))) :
    set.decode plan input = record <$> Message.decode input := by
  change Read.Agree _ _ _ (readMessage set plan input (.start input)) at hagree
  unfold PlanSet.decode Message.decode
  cases hread : (Message.read : Read α) input (.start input) with
  | ok message after =>
      obtain ⟨_, hrun, rfl⟩ := (hread ▸ hagree).of_ok
      rw [hrun]
      rfl
  | error e after =>
      obtain ⟨_, after', hrun, rfl⟩ := (hread ▸ hagree).of_error
      rw [hrun]
      rfl

namespace Shapes

open Program

variable {μ : Type}

/-! ## Decoding -/

section Decoding

variable {nests : String → μ → Record → Prop} {decode : String → Read μ}
  {nested : MessagePlan → Read Record}

/-- The decoder of a struct of the program goes along with decoding by its plan. -/
theorem related_item {plan : MessagePlan} (hplan : plan ∈ plans.messages)
    (hsynthetic : plan.synthetic = false)
    (hnested : ∀ field ∈ plan.fields, field.DecodesNested plans nests decode nested) :
    Read.Related Eq (Fields.Stand plans nests plan)
      ((plan.structItem plans).decodeFrom program decode) (readMessageWith plans nested plan) :=
  MessagePlan.related_decodeFrom (coherent_plans plan hplan)
    (distinctNames_plans.fields plan hplan) distinctNames_plans.toDistinctIdentifiers
    (closed_plans plan hplan).types hsynthetic hnested

/-- Apart from chains, the messages within messages are points, and there are none in points. -/
theorem name_of_nested {plan : MessagePlan} (hplan : plan ∈ plans.messages)
    (hchain : plan.name ≠ "Chain") {field : FieldPlan} (hfield : field ∈ plan.fields)
    (hmap : field.isMapEntry = false) {name : String} (htype : field.type = .message name) :
    name = "Point" ∧ plan.name ≠ "Point" := by
  have hall : ∀ plan ∈ plans.messages, plan.name ≠ "Chain" → ∀ field ∈ plan.fields,
      field.isMapEntry = false → field.type = .message field.type.name →
        field.type.name = "Point" ∧ plan.name ≠ "Point" := by
    decide +kernel
  simpa [htype, ValueType.name] using hall plan hplan hchain field hfield hmap

theorem related_point (levels : Nat) :
    Read.Related Eq (fun (point : Point) record => record = point.record) Point.read
      (readMessageWithin plans levels pointPlan) := by
  have hplan : pointPlan ∈ plans.messages := by simp [plans]
  have hmaps : ∀ field ∈ pointPlan.fields, field.isMapEntry = false := by decide
  have hitem : ∀ nested, Read.Related Eq (Fields.Stand plans (fun _ _ _ => False) pointPlan)
      (Point.item.decodeFrom program noMessages) (readMessageWith plans nested pointPlan) := by
    refine fun nested => related_item hplan rfl fun field hfield => ⟨fun hmap => ?_, fun hmap => ?_⟩
    · intro name plan htype _
      exact absurd rfl (name_of_nested hplan (by decide) hfield hmap htype).2
    · cases hmap.symm.trans (hmaps field hfield)
  cases levels <;> exact (hitem _).map_left fun _ _ => Point.record_of_stand

/-- The points in a message other than a chain are decoded by its plan as they are. -/
theorem decodesNested_point {plan : MessagePlan} (hplan : plan ∈ plans.messages)
    (hchain : plan.name ≠ "Chain") {field : FieldPlan} (hfield : field ∈ plan.fields)
    (hmap : field.isMapEntry = false) (levels : Nat) :
    DecodesNested plans PointStands (fun _ => Point.read) (readMessageWithin plans levels)
      field.type := by
  intro name nested htype hnested
  obtain ⟨rfl, -⟩ := name_of_nested hplan hchain hfield hmap htype
  obtain rfl := Option.some.inj (hnested : some pointPlan = some nested)
  exact (related_point levels).imp fun _ _ hsame => ⟨rfl, hsame⟩

theorem related_shape (levels : Nat) :
    Read.Related Eq (fun (shape : Shape) record => record = shape.record) Shape.read
      (readMessageWithin plans (levels + 2) shapePlan) := by
  have hplan : shapePlan ∈ plans.messages := by simp [plans]
  refine (related_item hplan rfl fun field hfield => ⟨fun hmap => ?messages, ?entries⟩).map_left
    fun _ _ => Shape.record_of_stand
  case messages => exact decodesNested_point hplan (by decide) hfield hmap (levels + 1)
  case entries =>
    intro hmap name entry key type htype hentry hisEntry
    obtain ⟨hmem, -⟩ := plans.mem_of_message? hentry
    have hvalue : .ofEntry valueField 2 type ∈ entry.fields := by simp [hisEntry.fields]
    have hnames : ∀ plan ∈ plans.messages, plan.synthetic = true → plan.name ≠ "Chain" := by
      decide +kernel
    have hchain := hnames entry hmem hisEntry.synthetic
    exact MessagePlan.related_decodeFrom_entry hisEntry (coherent_plans entry hmem).toLaidOut
      (required_plans hmem) distinctNames_plans.toDistinctIdentifiers
      (closed_plans.has_entry hentry hisEntry) (decodesNested_point hmem hchain hvalue rfl levels)

/-- A chain is decoded by its plan as it is if the rest of it is. -/
theorem related_chain_item {rest : Read Chain} {nested : MessagePlan → Read Record}
    (h : Read.Related Eq (fun (chain : Chain) record => record = chain.record) rest
      (nested chainPlan)) :
    Read.Related Eq (fun (chain : Chain) record => record = chain.record)
      (Chain.ofFields <$> Chain.item.decodeFrom program fun _ => rest)
      (readMessageWith plans nested chainPlan) := by
  have hplan : chainPlan ∈ plans.messages := by simp [plans]
  have hmaps : ∀ field ∈ chainPlan.fields, field.isMapEntry = false := by decide
  have htypes : ∀ field ∈ chainPlan.fields,
      field.type = .message "Chain" ∨ field.type = .scalar .int32 := by decide
  refine (related_item hplan rfl fun field hfield => ⟨fun hmap => ?_, fun hmap => ?_⟩).map_left
    fun _ _ => Chain.record_of_stand
  · intro name plan htype hnested
    rcases htypes field hfield with hchain | hscalar
    · obtain rfl := ValueType.message.inj (htype.symm.trans hchain)
      obtain rfl := Option.some.inj (hnested : some chainPlan = some plan)
      exact h.imp fun _ _ hsame => ⟨rfl, hsame⟩
    · cases htype.symm.trans hscalar
  · cases hmap.symm.trans (hmaps field hfield)

theorem related_chain (levels : Nat) :
    Read.Related Eq (fun (chain : Chain) record => record = chain.record)
      (Chain.readWithin levels) (readMessageWithin plans levels chainPlan) := by
  induction levels with
  | zero => exact related_chain_item (Read.related_throw rfl)
  | succ levels ih => exact related_chain_item ih

theorem related_empty (levels : Nat) :
    Read.Related Eq (fun (message : Empty) record => record = message.record) Empty.read
      (readMessageWithin plans levels emptyPlan) := by
  have hplan : emptyPlan ∈ plans.messages := by simp [plans]
  have hitem : ∀ nested, Read.Related Eq (Fields.Stand plans (fun _ _ _ => False) emptyPlan)
      (Empty.item.decodeFrom program noMessages) (readMessageWith plans nested emptyPlan) :=
    fun nested => related_item hplan rfl fun field hfield => absurd hfield List.not_mem_nil
  cases levels <;> exact (hitem _).map_left fun _ record h =>
    h.eq_ofFields Empty.givenBy_nil fun _ hvalue => absurd hvalue List.not_mem_nil

end Decoding

/-! ## Encoding -/

section Encoding

variable {nests : String → μ → Record → Prop} {encode : μ → Buffer → Buffer}
  {fields listing : Fields μ} {record : Record} {plan : MessagePlan}

theorem exists_encodeTo_item (hplan : plan ∈ plans.messages)
    (hnested : EncodesNested plans nests encode) (h : fields.Stand plans nests plan record) :
    ∃ tree, messageTree plans plan record = .ok tree ∧
      Buffer.Appends ((plan.structItem plans).encodeTo program encode fields)
        (WireValue.messageBytes tree) :=
  MessagePlan.exists_encodeTo h distinctNames_plans hnested (coherent_plans plan hplan)
    (distinctNames_plans.fields plan hplan)

theorem exists_write_point (point : Point) :
    ∃ tree, messageTree plans pointPlan point.record = .ok tree ∧
      Buffer.Appends point.write (WireValue.messageBytes tree) := by
  have hnested : EncodesNested plans (fun _ (_ : PEmpty) _ => False) PEmpty.elim := nofun
  exact exists_encodeTo_item (by simp [plans]) hnested point.stand_fields

theorem encodesNested_point : EncodesNested plans PointStands Point.write := by
  rintro _ point _ ⟨rfl, rfl⟩
  obtain ⟨tree, htree, happends⟩ := exists_write_point point
  exact ⟨pointPlan, tree, rfl, htree, happends⟩

theorem exists_write_shape (shape : Shape) :
    ∃ tree, messageTree plans shapePlan shape.record = .ok tree ∧
      Buffer.Appends shape.write (WireValue.messageBytes tree) :=
  exists_encodeTo_item (by simp [plans]) encodesNested_point shape.stand_fields

/-- What is held of the rest of a chain writes it. -/
def ChainWrites (name : String) (write : Buffer → Buffer) (record : Record) : Prop :=
  name = "Chain" ∧ ∃ tree, messageTree plans chainPlan record = .ok tree ∧
    Buffer.Appends write (WireValue.messageBytes tree)

theorem encodesNested_chain : EncodesNested plans ChainWrites fun write => write := by
  rintro _ write record ⟨rfl, tree, htree, happends⟩
  exact ⟨chainPlan, tree, rfl, htree, happends⟩

theorem exists_write_chain (chain : Chain) :
    ∃ tree, messageTree plans chainPlan chain.record = .ok tree ∧
      Buffer.Appends chain.write (WireValue.messageBytes tree) := by
  have hplan : chainPlan ∈ plans.messages := by simp [plans]
  induction chain with
  | last depth =>
      exact exists_encodeTo_item hplan encodesNested_chain (Chain.stand_fieldsWith .none depth)
  | link next depth ih =>
      exact exists_encodeTo_item hplan encodesNested_chain
        (Chain.stand_fieldsWith (.some ⟨rfl, ih⟩) depth)

theorem exists_write_empty (message : Empty) :
    ∃ tree, messageTree plans emptyPlan message.record = .ok tree ∧
      Buffer.Appends message.write (WireValue.messageBytes tree) := by
  have hnested : EncodesNested plans (fun _ (_ : PEmpty) _ => False) PEmpty.elim := nofun
  exact exists_encodeTo_item (by simp [plans]) hnested message.stand_nil

/-- What is written as the wire tree of a message is its encoding. -/
theorem encode_of_appends {α : Type} [Message α] {message : α}
    (h : ∃ tree, messageTree plans plan record = .ok tree ∧
      Buffer.Appends (Message.write message) (WireValue.messageBytes tree)) :
    plans.encode plan record = .ok (Message.encode message) := by
  obtain ⟨tree, htree, happends⟩ := h
  rw [PlanSet.encode_eq, htree, Except.map_ok, Message.encode, happends.bytes_eq]

end Encoding

/-! ## Listings -/

/-- A shape with the entries of its maps in another order. -/
def Shape.Lists (listing shape : Shape) : Prop :=
  listing.tags.Perm shape.tags ∧ listing.flags.Perm shape.flags ∧
    listing.anchors.Perm shape.anchors ∧ listing =
      { shape with tags := listing.tags, flags := listing.flags, anchors := listing.anchors }

/-- No map of a shape has two entries. -/
def Shape.FewEntries (shape : Shape) : Prop :=
  shape.tags.length ≤ 1 ∧ shape.flags.length ≤ 1 ∧ shape.anchors.length ≤ 1

section Listing

variable {listing shape : Shape} (h : listing.Lists shape)
include h

theorem Shape.lists_fields : listing.fields.Lists shape.fields := by
  obtain ⟨htags, hflags, hanchors, hrest⟩ := h
  rw [hrest]
  unfold fields
  refine .cons ⟨rfl, .refl _⟩ <| .cons ⟨rfl, .refl _⟩ <| .cons ⟨rfl, .refl _⟩ <|
    .cons ⟨rfl, .entries (htags.map _)⟩ <| .cons ⟨rfl, .refl _⟩ <| .cons ⟨rfl, .refl _⟩ <|
    .cons ⟨rfl, .refl _⟩ <| .cons ⟨rfl, .entries (hflags.map _)⟩ <|
    .cons ⟨rfl, .entries (hanchors.map _)⟩ <| .cons ⟨rfl, .refl _⟩ <| .cons ⟨rfl, .refl _⟩ .nil

theorem Shape.encodesUpToEntries :
    plans.EncodesUpToEntries shapePlan shape.record (Message.encode listing) := by
  have hplan : shapePlan ∈ plans.messages := by simp [plans]
  exact MessagePlan.encodesUpToEntries distinctNames_plans encodesNested_point shape.stand_fields
    (coherent_plans shapePlan hplan) (distinctNames_plans.fields shapePlan hplan)
    (Shape.lists_fields h)

theorem Shape.eq_of_fewEntries (hfew : shape.FewEntries) : listing = shape := by
  obtain ⟨htags, hflags, hanchors, hrest⟩ := h
  obtain ⟨htagCount, hflagCount, hanchorCount⟩ := hfew
  rw [hrest, eq_of_perm_of_length_le_one htags htagCount,
    eq_of_perm_of_length_le_one hflags hflagCount,
    eq_of_perm_of_length_le_one hanchors hanchorCount]

end Listing

theorem mem_program {plan : MessagePlan} (hplan : plan ∈ plans.messages)
    (hsynthetic : plan.synthetic = false) :
    MessageItem.struct (plan.structItem plans) ∈ program.messages := by
  refine List.mem_filterMap.mpr ⟨plan, hplan, ?_⟩
  rw [MessagePlan.item?, hsynthetic]
  rfl

end Shapes

end WireCodec
