import WireCodec.Codec.Decode
import WireCodec.Proofs.Codec.FieldTrees
import WireCodec.Proofs.Codec.Levels
import WireCodec.Proofs.Codec.WritesTree
import WireCodec.Proofs.Plan.Closed
import WireCodec.Proofs.Wire.Fails

/-! # References that encoding and decoding follow

The writers and the readers look up messages, enums and fields by what a plan
says, and fail with a dangling reference where there is nothing. By the plans
of a compiled schema they never do, whatever value or input they are given.
-/

namespace WireCodec

/-- A reference was followed to something that is not there. -/
def EncodeError.Dangles : EncodeError → Prop
  | .danglingReference _ => True
  | _ => False

/-- A reference was followed to something that is not there. -/
def DecodeError.Dangles : DecodeError → Prop
  | .danglingReference _ => True
  | _ => False

theorem DecodeError.OfBytes.not_dangles {e : DecodeError} (h : e.OfBytes) : ¬ e.Dangles := by
  cases h <;> exact id

section Plans

variable {set : PlanSet} {plan : MessagePlan}

theorem FieldPlan.Coherent.entry_of_mapEntries {field : FieldPlan} (h : field.Coherent set)
    (hmap : field.isMapEntry = true) : ∃ plan key type,
      set.message? field.type.name = some plan ∧ plan.IsEntry key type := by
  obtain ⟨_, name, plan, key, type, htype, hplan, hentry⟩ := h.entry hmap
  rw [htype]
  exact ⟨plan, key, type, hplan, hentry⟩

/-- A required field that a message lacks is a field of the plan. -/
theorem MessagePlan.LaidOut.firstMissing?_not_dangles (h : plan.LaidOut) {record : Record}
    {e : DecodeError} (he : plan.firstMissing? record plan.required = some e) : ¬ e.Dangles := by
  obtain ⟨_, _, _, rfl⟩ := h.exists_of_firstMissing? he
  unfold MessagePlan.missingField
  split <;> exact id

end Plans

/-! ## Encoding -/

section Errors

variable {set : PlanSet} {P : EncodeError → Prop}

/-! What a property of the errors of values says of lists, maps and messages. -/

theorem fails_itemTrees {field : FieldPlan} {items : List Value}
    (hitems : ∀ item ∈ items, Except.Fails (valueTree set field.name field.type item) P) :
    Except.Fails (itemTrees set field items) P := by
  induction items with
  | nil =>
      unfold itemTrees
      exact Except.fails_ok _
  | cons item rest ih =>
      obtain ⟨hitem, hrest⟩ := List.forall_mem_cons.mp hitems
      unfold itemTrees
      exact hitem.bind fun first => (ih hrest).bind fun others => Except.fails_ok _

theorem fails_entryTrees {keyPlan valuePlan : FieldPlan} {entries : List (MapKey × Value)}
    (hkeys : ∀ entry ∈ entries,
      Except.Fails (leafTree set keyPlan.name keyPlan.type (.ofMapKey entry.1)) P)
    (hvalues : ∀ entry ∈ entries,
      Except.Fails (valueTree set valuePlan.name valuePlan.type entry.2) P) :
    Except.Fails (entryTrees set keyPlan valuePlan entries) P := by
  induction entries with
  | nil =>
      unfold entryTrees
      exact Except.fails_ok _
  | cons entry rest ih =>
      obtain ⟨key, value⟩ := entry
      obtain ⟨hkey, hkeys⟩ := List.forall_mem_cons.mp hkeys
      obtain ⟨hvalue, hvalues⟩ := List.forall_mem_cons.mp hvalues
      unfold entryTrees
      refine hkey.bind fun first => hvalue.bind fun second => ?_
      exact (ih hkeys hvalues).bind fun others => Except.fails_ok _

/-- The field that a step is about is there. -/
theorem fails_stepTrees {plan : MessagePlan} (hplan : plan.LaidOut) {record : Record}
    (hfields : ∀ field ∈ plan.fields, Except.Fails (contribution set record field) P)
    {steps : List EncodeStep} (hsteps : ∀ step ∈ steps, step ∈ plan.steps) :
    Except.Fails (stepTrees set plan record steps) P := by
  induction steps with
  | nil =>
      unfold stepTrees
      exact Except.fails_ok _
  | cons step rest ih =>
      obtain ⟨hstep, hrest⟩ := List.forall_mem_cons.mp hsteps
      rw [hplan.steps] at hstep
      obtain ⟨index, hindex, rfl⟩ := List.mem_mapIdx.mp hstep
      have hget : plan.fields[index]? = some plan.fields[index] := List.getElem?_eq_getElem hindex
      rw [stepTrees_cons_of_field hget rfl]
      refine (hfields _ (List.getElem_mem hindex)).bind fun own => ?_
      exact (ih hrest).bind fun others => Except.fails_ok _

theorem fails_contribution {record : Record} {field : FieldPlan}
    (h : ∀ value, Record.value? record field.name = some value →
      Except.Fails (fieldTrees set field field.form value) P) :
    Except.Fails (contribution set record field) P := by
  unfold contribution
  split
  next => exact Except.fails_ok _
  next value hvalue => exact h value hvalue

end Errors

section Encode

variable {set : PlanSet} {name : String} {type : ValueType}

theorem fails_leafTree (htype : set.Has type) (value : Value) :
    Except.Fails (leafTree set name type value) (¬ ·.Dangles) := by
  unfold leafTree
  split
  next =>
    split
    · exact Except.fails_ok _
    · exact Except.fails_error id
  next =>
    obtain ⟨table, htable⟩ := htype
    split
    next =>
      rw [htable]
      dsimp only
      split
      · exact Except.fails_ok _
      · exact Except.fails_error id
    next => exact Except.fails_error id
  next => exact Except.fails_error id

theorem fails_valueTree (htype : set.Has type) {value : Value}
    (hnested : ∀ fields, value = .message fields → ∀ plan ∈ set.messages,
      Except.Fails (messageTree set plan fields) (¬ ·.Dangles)) :
    Except.Fails (valueTree set name type value) (¬ ·.Dangles) := by
  unfold valueTree
  split
  next fields =>
    obtain ⟨plan, hplan⟩ := htype
    rw [hplan]
    dsimp only
    refine (hnested fields rfl plan (set.mem_of_message? hplan).1).bind ?_
    exact fun tree => Except.fails_ok _
  next => exact fails_leafTree htype value

variable (hset : set.Closed)
include hset

theorem fails_fieldTrees {field : FieldPlan} (hfield : field.Coherent set)
    (htype : set.Has field.type) {value : Value}
    (hnested : ∀ fields, .message fields ∈ value.elements → ∀ plan ∈ set.messages,
      Except.Fails (messageTree set plan fields) (¬ ·.Dangles)) :
    Except.Fails (fieldTrees set field field.form value) (¬ ·.Dangles) := by
  have helement : ∀ name type, set.Has type → ∀ element ∈ value.elements,
      Except.Fails (valueTree set name type element) (¬ ·.Dangles) :=
    fun _ _ htype element hmem => fails_valueTree htype fun fields heq =>
      hnested fields (heq ▸ hmem)
  unfold fieldTrees
  split
  next =>
    refine (fails_valueTree htype fun fields heq => ?_).bind fun tree => Except.fails_ok _
    subst heq
    exact hnested fields List.mem_cons_self
  next =>
    split
    next items => exact fails_itemTrees (helement _ _ htype)
    next => exact Except.fails_error id
  next =>
    split
    next => exact Except.fails_ok _
    next items _ => exact (fails_itemTrees (helement _ _ htype)).bind fun _ => Except.fails_ok _
    next => exact Except.fails_error id
  next entry hform =>
    obtain ⟨_, plan, key, type, hplan, hentry⟩ := hfield.entry_of_form hform
    split
    next entries =>
      rw [hplan]
      simp only [hentry.fields]
      have hkey : set.Has (.scalar key) := trivial
      refine fails_entryTrees (fun entry _ => fails_leafTree hkey _) fun entry hmem => ?_
      exact helement _ _ (hset.has_entry hplan hentry) _ (List.mem_map.mpr ⟨entry, hmem, rfl⟩)
    next => exact Except.fails_error id

/-- Encoding by a closed plan does not fail for a reference. -/
theorem fails_messageTree (record : Record) : ∀ plan ∈ set.messages,
    Except.Fails (messageTree set plan record) (¬ ·.Dangles) := by
  induction record using Record.nesting_induction with
  | step record nested =>
      intro plan hplan
      unfold messageTree
      split
      · exact Except.fails_error id
      · have hclosed := hset plan hplan
        refine fails_stepTrees hclosed.toLaidOut (fun field hfield => ?_) fun step hstep => hstep
        refine fails_contribution fun value hvalue => ?_
        exact fails_fieldTrees hset (hclosed.fields _ hfield) (hclosed.types _ hfield)
          (nested _ (Sorted.mem_of_find? hvalue))

end Encode

/-! ## Decoding -/

section Decode

variable {set : PlanSet} {nested : MessagePlan → Read Record}
  (hnested : ∀ plan ∈ set.messages, (nested plan).Fails (¬ ·.Dangles))
include hnested

theorem fails_readValue {type : ValueType} (htype : set.Has type) :
    (readValue set nested type).Fails (¬ ·.Dangles) := by
  cases type with
  | scalar type =>
      exact ((Read.fails_scalar (fun _ => DecodeError.OfBytes.not_dangles) type).map _).map _
  | enum name =>
      obtain ⟨table, htable⟩ := htype
      unfold readValue
      simp only [htable]
      refine (Read.fails_scalar (fun _ => DecodeError.OfBytes.not_dangles) _).bind fun number => ?_
      exact Read.fails_pure _
  | message name =>
      obtain ⟨plan, hplan⟩ := htype
      unfold readValue
      simp only [hplan]
      refine Read.Fails.map ?_ _
      exact (hnested plan (set.mem_of_message? hplan).1).delimited
        fun _ => DecodeError.OfBytes.not_dangles

theorem fails_readEntry {field : FieldPlan} {entry : String} {plan : MessagePlan}
    (hplan : set.message? entry = some plan) (record : Record) :
    (readEntry set nested field entry record).Fails (¬ ·.Dangles) := by
  unfold readEntry
  rw [hplan]
  dsimp only
  refine Read.Fails.bind ((hnested plan (set.mem_of_message? hplan).1).delimited
    fun _ => DecodeError.OfBytes.not_dangles) fun pair => ?_
  split
  · exact Read.fails_throw id
  · split
    · exact Read.fails_throw id
    · exact Read.fails_pure _

theorem fails_readArm {plan : MessagePlan} (hplan : plan.Closed set) {arm : DecodeArm}
    (harm : arm ∈ plan.arms) (found : Key) (record : Record) :
    (readArm set nested plan found arm record).Fails (¬ ·.Dangles) := by
  have hmapsAt : ∀ entry, arm.action = .mergeEntry entry → plan.MapsAt arm.field entry :=
    fun entry haction => Or.inr ⟨arm, harm, rfl, haction⟩
  have hexpect : ∀ expected, (Read.expect found expected).Fails (¬ ·.Dangles) :=
    Read.fails_expect (fun _ => DecodeError.OfBytes.not_dangles) found
  have hfield : ∃ field, plan.fields[arm.field]? = some field := by
    rw [hplan.arms] at harm
    obtain ⟨index, hindex, rfl⟩ := List.mem_mapIdx.mp harm
    exact ⟨_, List.getElem?_eq_getElem hindex⟩
  obtain ⟨field, hget⟩ := hfield
  have htype := hplan.types field (List.mem_of_getElem? hget)
  have hitem : ∀ record, (readItem set nested field record).Fails (¬ ·.Dangles) :=
    fun record => (fails_readValue hnested htype).map _
  unfold readArm
  rw [hget]
  dsimp only
  split
  next => exact (hexpect _).bind fun _ => (fails_readValue hnested htype).map _
  next => exact (hexpect _).bind fun _ => hitem record
  next =>
    exact Read.fails_packable (fun _ => DecodeError.OfBytes.not_dangles) hitem _ _ _
  next entry haction =>
    obtain ⟨_, hget', hmap, rfl⟩ := hplan.of_mapsAt (hmapsAt entry haction)
    cases hget.symm.trans hget'
    obtain ⟨_, _, _, hentryPlan, _⟩ :=
      (hplan.fields field (List.mem_of_getElem? hget)).entry_of_mapEntries hmap
    exact (hexpect _).bind fun _ => fails_readEntry hnested hentryPlan record

theorem fails_readMessageWith {plan : MessagePlan} (hplan : plan.Closed set) :
    (readMessageWith set nested plan).Fails (¬ ·.Dangles) := by
  have hoccurrence : ∀ record, (readOccurrence set nested plan record).Fails (¬ ·.Dangles) := by
    intro record
    refine (Read.fails_key fun _ => DecodeError.OfBytes.not_dangles).bind fun found => ?_
    cases found with
    | none => exact Read.fails_pure _
    | some found =>
        refine Read.Fails.map ?_ _
        unfold readField
        split
        next =>
          exact (Read.fails_skip (fun _ => DecodeError.OfBytes.not_dangles) _).map _
        next arm harm => exact fails_readArm hnested hplan (List.mem_of_find?_eq_some harm) _ _
  refine (Read.Fails.iterate hoccurrence []).bind fun record => ?_
  unfold MessagePlan.complete
  split
  next => exact Read.fails_pure _
  next e he => exact Read.fails_throw (hplan.firstMissing?_not_dangles he)

end Decode

theorem fails_readMessageWithin {set : PlanSet} (hset : set.Closed) (levels : Nat) :
    ∀ plan ∈ set.messages, (readMessageWithin set levels plan).Fails (¬ ·.Dangles) := by
  induction levels with
  | zero =>
      exact fun plan hplan => fails_readMessageWith (fun _ _ => Read.fails_throw id)
        (hset plan hplan)
  | succ levels ih => exact fun plan hplan => fails_readMessageWith ih (hset plan hplan)

/-! ## Compiled schemas -/

namespace PlanSet

variable {set : PlanSet} {plan : MessagePlan} (hset : set.Closed) (hplan : plan ∈ set.messages)
include hset hplan

theorem encode_ne_dangling (record : Record) (name : String) :
    set.encode plan record ≠ .error (.danglingReference name) := by
  rw [PlanSet.encode_eq]
  intro h
  exact (fails_messageTree hset record plan hplan).map _ _ h trivial

theorem decode_ne_dangling (input : Bytes) (name : String) :
    set.decode plan input ≠ .error (.danglingReference name) := by
  unfold PlanSet.decode
  split
  next => exact fun h => by cases h
  next e _ hrun =>
    rintro ⟨⟩
    exact fails_readMessageWithin hset _ plan hplan _ _ _ _ hrun trivial

end PlanSet

/-- Plans are built for every compiled schema. By none of them, encoding any
value and decoding any input follow a reference to something that is not there,
and the entries of a map field are written and read by the plan of a key and a
value that was made for that field. -/
theorem Schema.build_closed_of_compile {source : String} {schema : Schema}
    (hcompile : compile source = .ok schema) :
    ∃ set, schema.build = .ok set ∧ ∀ plan ∈ set.messages, plan.Closed set ∧
      (∀ record name, set.encode plan record ≠ .error (.danglingReference name)) ∧
      (∀ input name, set.decode plan input ≠ .error (.danglingReference name)) ∧
      ∀ index name, plan.MapsAt index name →
        ∃ decl ∈ schema.messages, plan.BuiltFor schema decl.node ∧
          ∃ field, decl.node.fields[index]? = some field ∧
            ∃ entry, set.message? name = some entry ∧
              entry.EntriesOf schema decl.node.name.node field.node := by
  obtain ⟨hcheck, -⟩ := sound_of_compile hcompile
  obtain ⟨set, hbuild⟩ := Schema.exists_build hcheck
  have hset := closed_of_build hcompile hbuild
  refine ⟨set, hbuild, fun plan hplan => ⟨hset plan hplan, ?_, ?_, ?_⟩⟩
  · exact PlanSet.encode_ne_dangling hset hplan
  · exact PlanSet.decode_ne_dangling hset hplan
  · exact fun index name hmaps => Schema.entriesOf_of_mapsAt hcompile hbuild hplan hmaps

/-- Two messages and an enum of one name. -/
def shadowSource : String :=
  "enum A \x7b X = 0; \x7d message A \x7b map<string, A> m = 1; \x7d " ++
    "message A \x7b optional A a = 1; \x7d"

theorem compile_shadowSource : ∃ schema, compile shadowSource = .ok schema ∧
    schema.plain.map (·.name) = ["A", "A.MEntry", "A"] :=
  Except.exists_of_any (by decide +kernel)

theorem build_closed_shadow : ∃ schema set, compile shadowSource = .ok schema ∧
    schema.plain.map (·.name) = ["A", "A.MEntry", "A"] ∧ schema.build = .ok set ∧
    ∀ plan ∈ set.messages, plan.Closed set ∧
      (∀ record name, set.encode plan record ≠ .error (.danglingReference name)) ∧
      (∀ input name, set.decode plan input ≠ .error (.danglingReference name)) := by
  obtain ⟨schema, hcompile, hnames⟩ := compile_shadowSource
  obtain ⟨set, hbuild, hplans⟩ := Schema.build_closed_of_compile hcompile
  refine ⟨schema, set, hcompile, hnames, hbuild, fun plan hplan => ?_⟩
  obtain ⟨hclosed, hencode, hdecode, -⟩ := hplans plan hplan
  exact ⟨hclosed, hencode, hdecode⟩

end WireCodec
