import WireCodec.Proofs.Codec.Fits
import WireCodec.Proofs.Floating.Exact
import WireCodec.Proofs.Json.Floats
import WireCodec.Proofs.Text.Base64
import WireCodec.Proofs.Text.Decimal

/-! # Messages through JSON

A message that fits its plan becomes a JSON value from which it is read back,
if byte strings are read back from their texts. Numbers, symbols and keys are
all kept; of a NaN only that it is one.
-/

namespace WireCodec

/-! ## Numbers -/

namespace JsonNumber

theorem toInt64?_ofInt64 (n : Int64) : (ofInt64 n).toInt64? = some n := by
  unfold ofInt64
  split
  next => rfl
  next h =>
    have hnonneg : ¬n.toInt < 0 := Int64.lt_iff_toInt_lt.not.mp h
    have hpattern : n.toInt = n.toBitVec.toInt := rfl
    rw [hpattern, BitVec.toInt_eq_toNat_cond] at hnonneg
    have hlt : n.toUInt64.toNat < 0x8000000000000000 := by
      change n.toBitVec.toNat < _
      split at hnonneg <;> omega
    rw [toInt64?, if_pos hlt]
    rfl

@[simp]
theorem mapDouble_ofInt64 (f : Binary64 → Binary64) (n : Int64) :
    (ofInt64 n).mapDouble f = ofInt64 n := by
  unfold ofInt64
  split <;> rfl

end JsonNumber

/-- What a double comes back as when finite ones go through a map on the way:
others are read back from words. -/
def Binary64.back (f : Binary64 → Binary64) (x : Binary64) : Binary64 :=
  if x.isFinite then f x else x.standard

/-- What a single comes back as, which is written as a double. -/
def Binary32.back (f : Binary64 → Binary64) (x : Binary32) : Binary32 := (x.widen.back f).narrow

theorem Binary64.back_id : Binary64.back id = Binary64.standard := by
  funext x
  unfold back
  split
  next h => exact (standard_of_isFinite h).symm
  next => rfl

theorem Binary32.back_id : Binary32.back id = Binary32.standard := by
  funext x
  rw [back, Binary64.back_id, narrow_standard_widen]

namespace Json

variable (f : Binary64 → Binary64)

theorem toDouble?_ofDouble (x : Binary64) :
    ((ofDouble x).mapDoubles f).toDouble? = some (x.back f) := by
  unfold ofDouble Binary64.back
  split
  next => rfl
  next h => exact Binary64.ofNonFinite?_word h

theorem toInt?_ofInt64 (n : Int64) : toInt? (.number (.ofInt64 n)) = some n.toInt := by
  rw [toInt?, JsonNumber.toInt64?_ofInt64]
  rfl

end Json

/-- A map key is read from its text. -/
theorem MapKey.ofText?_text {type : ScalarType} {key : MapKey} {x : type.Carrier}
    (h : Value.ofMapKey key = Value.ofScalar type x) :
    ofText? (.scalar type) key.text = some key := by
  cases key with
  | bool b =>
      cases type <;> cases h
      cases b <;> rfl
  | int32 n =>
      cases type <;> cases h <;>
        simp only [ofText?, text, Text.Decimal.int?_toString, Option.bind_some, int32?_toInt,
          Option.map_some]
  | int64 n =>
      cases type <;> cases h <;>
        simp only [ofText?, text, Text.Decimal.int?_toString, Option.bind_some, int64?_toInt,
          Option.map_some]
  | uint32 n =>
      cases type <;> cases h <;>
        simp only [ofText?, text, Text.Decimal.nat?_toString, Option.bind_some, uint32?_toNat,
          Option.map_some]
  | uint64 n =>
      cases type <;> cases h <;>
        simp only [ofText?, text, Text.Decimal.nat?_toString, Option.bind_some, uint64?_toNat,
          Option.map_some]
  | string s =>
      cases type <;> cases h
      rfl

section Values

variable [Base64Engine] (set : PlanSet) (f : Binary64 → Binary64)

/-- The JSON value of a value, with other doubles. -/
def Value.sent (type items : Option ValueType) (value : Value) : Json :=
  (value.toJson set type items).mapDoubles f

/-- What a value comes back as. -/
def Value.back (value : Value) : Value := value.mapFloats (Binary32.back f) (Binary64.back f)

variable {set}

theorem toValue_ofDouble (name : String) (room : FieldRoom) (x : Binary64) :
    ((Json.ofDouble x).mapDoubles f).toValue set name room =
      leafOfJson set name room ((Json.ofDouble x).mapDoubles f) := by
  unfold Json.ofDouble
  split <;> rfl

/-- Scalars are read back, whatever the doubles become. -/
theorem toValue_scalar
    (hbase64 : ∀ bytes, Base64Engine.decode? (Base64Engine.encode bytes) = some bytes)
    (name : String) (type : ScalarType) (x : type.Carrier)
    (outer items : Option ValueType) :
    ((Value.ofScalar type x).sent set f outer items).toValue set name (.single (.scalar type)) =
      .ok ((Value.ofScalar type x).back f) := by
  unfold Value.sent Value.back
  cases type with
  | double =>
      simp only [Value.ofScalar, Value.toJson, toValue_ofDouble, leafOfJson, Json.toScalar?,
        Json.toDouble?_ofDouble, Value.mapFloats]
  | float =>
      simp only [Value.ofScalar, Value.toJson, toValue_ofDouble, leafOfJson, Json.toScalar?,
        Json.toDouble?_ofDouble, Value.mapFloats, Option.map_some]
      rfl
  | int32 | sint32 | sfixed32 =>
      simp only [Value.ofScalar, Value.toJson, Json.mapDoubles, JsonNumber.mapDouble_ofInt64,
        Json.toValue, leafOfJson, Json.toScalar?, Json.toInt?_ofInt64, Int32.toInt_toInt64,
        Option.bind_some, int32?_toInt, Value.mapFloats]
  | int64 | sint64 | sfixed64 =>
      simp only [Value.ofScalar, Value.toJson, Json.mapDoubles, JsonNumber.mapDouble_ofInt64,
        Json.toValue, leafOfJson, Json.toScalar?, Json.toInt?_ofInt64, Option.bind_some,
        int64?_toInt, Value.mapFloats]
  | uint32 | fixed32 =>
      have hnat : (Json.number (.unsigned x.toUInt64)).toNat? = some x.toNat := by
        simp [Json.toNat?, JsonNumber.toUInt64?]
      simp only [Value.ofScalar, Value.toJson, Json.mapDoubles, JsonNumber.mapDouble, Json.toValue,
        leafOfJson, Json.toScalar?, hnat, Option.bind_some, uint32?_toNat, Value.mapFloats]
  | uint64 | fixed64 =>
      have hnat : (Json.number (.unsigned x)).toNat? = some x.toNat := rfl
      simp only [Value.ofScalar, Value.toJson, Json.mapDoubles, JsonNumber.mapDouble, Json.toValue,
        leafOfJson, Json.toScalar?, hnat, Option.bind_some, uint64?_toNat, Value.mapFloats]
  | bool => rfl
  | string => rfl
  | bytes =>
      simp only [Value.ofScalar, Value.toJson, Json.mapDoubles, Json.toValue, leafOfJson,
        Json.toScalar?, Json.toText?, Option.bind_some, hbase64, Value.mapFloats]

/-! ## Lists and maps -/

theorem arrayItems_eq_map (type : Option ValueType) (items : List Value) :
    arrayItems set type items = items.map (Value.toJson set type none) := by
  induction items with
  | nil => rfl
  | cons item rest ih => simp only [arrayItems, ih, List.map_cons]

theorem entryMembers_eq_map (type : Option ValueType) (entries : List (MapKey × Value)) :
    entryMembers set type entries =
      entries.map fun entry => (entry.1.text, entry.2.toJson set type none) := by
  induction entries with
  | nil => rfl
  | cons entry rest ih =>
      obtain ⟨key, value⟩ := entry
      simp only [entryMembers, ih, List.map_cons]

theorem itemsOfJson_map {name : String} {type : ValueType} {sent : Value → Json}
    {back : Value → Value} {items : List Value} (h : ∀ item ∈ items,
      (sent item).toValue set name (.single type) = .ok (back item)) :
    itemsOfJson set name type (items.map sent) = .ok (items.map back) := by
  induction items with
  | nil => rfl
  | cons item rest ih =>
      obtain ⟨hitem, hrest⟩ := List.forall_mem_cons.mp h
      rw [List.map_cons, itemsOfJson, hitem, ih hrest]
      rfl

theorem entriesOfJson_map {name : String} {key type : ValueType} {sent : Value → Json}
    {back : Value → Value} {entries : List (MapKey × Value)} (h : ∀ entry ∈ entries,
      MapKey.ofText? key entry.1.text = some entry.1 ∧
        (sent entry.2).toValue set name (.single type) = .ok (back entry.2)) :
    entriesOfJson set name key type (entries.map fun entry => (entry.1.text, sent entry.2)) =
      .ok (entries.map fun entry => (entry.1, back entry.2)) := by
  induction entries with
  | nil => rfl
  | cons entry rest ih =>
      obtain ⟨⟨hkey, hvalue⟩, hrest⟩ := List.forall_mem_cons.mp h
      rw [List.map_cons, entriesOfJson, hkey]
      dsimp only
      rw [hvalue, ih hrest]
      rfl

/-- The members for the entries of a map are in the order of their texts, and
are read back as the entries in the order of their keys. -/
theorem exists_entriesOfJson {name : String} {key type : ValueType}
    {entries : List (MapKey × Value)} (hincreasing : Sorted.Increasing entries)
    (h : ∀ entry ∈ entries, MapKey.ofText? key entry.1.text = some entry.1 ∧
      (entry.2.sent set f (some type) none).toValue set name (.single type) =
        .ok (entry.2.back f)) :
    ∃ pairs, entriesOfJson set name key type
        (Json.mapMembers f (Sorted.ofList (entryMembers set (some type) entries))) = .ok pairs ∧
      Sorted.ofList pairs = entries.map fun entry => (entry.1, entry.2.back f) := by
  let member : MapKey × Value → String × Json := fun entry =>
    (entry.1.text, entry.2.toJson set (some type) none)
  have htexts : ((entries.map member).map (·.1)).Nodup := by
    rw [List.map_map]
    refine List.pairwise_map.mpr (List.Pairwise.imp_of_mem ?_ hincreasing)
    intro before after hbefore hafter hlt htext
    have hkeys : some before.1 = some after.1 := by
      rw [← (h before hbefore).1, ← (h after hafter).1]
      exact congrArg _ htext
    exact Sorted.ne_of_compare_eq_lt hlt (Option.some.inj hkeys)
  obtain ⟨moved, hmoved, hperm⟩ : ∃ moved : List (MapKey × Value),
      Sorted.ofList (entries.map member) = moved.map member ∧ moved.Perm entries :=
    (congrFun₂ (List.eq_map_comp_perm member) _ _).mpr (Sorted.ofList_perm htexts)
  have hread := entriesOfJson_map fun entry hmem => h entry (hperm.mem_iff.mp hmem)
  refine ⟨moved.map fun entry => (entry.1, entry.2.back f), ?_, ?_⟩
  · rw [entryMembers_eq_map, hmoved, Json.mapMembers_eq_map, List.map_map]
    exact hread
  · exact Sorted.ofList_of_perm (List.pairwise_map.mpr hincreasing) (hperm.map _)

/-! ## Fields -/

theorem Value.toJson_ne_null (type items : Option ValueType) (value : Value) :
    value.toJson set type items ≠ .null := by
  cases value with
  | float x | double x =>
      unfold Value.toJson Json.ofDouble
      split <;> simp
  | message fields =>
      unfold Value.toJson
      split <;> simp
  | _ => simp [Value.toJson]

theorem Value.sent_ne_null (type items : Option ValueType) (value : Value) :
    value.sent set f type items ≠ .null := by
  have hne := @Value.toJson_ne_null _ set type items value
  unfold Value.sent
  cases hjson : value.toJson set type items with
  | null => exact absurd hjson hne
  | _ => simp [Json.mapDoubles]

variable {f}

omit [Base64Engine] in
theorem Value.Fits.exists_ofScalar {value : Value} {type : ScalarType}
    (h : value.Fits set (.single (.scalar type))) : ∃ x, value = .ofScalar type x := by
  cases h with
  | scalar _ x => exact ⟨x, rfl⟩

/-- A message that fits a plan is read back from the members for its fields. -/
def ReadBack (set : PlanSet) (f : Binary64 → Binary64) (plan : MessagePlan) (record : Record) :
    Prop :=
  fieldsOfJson set plan (Json.mapMembers f (plannedMembers set plan record)) =
    .ok (Record.mapFloats (Binary32.back f) (Binary64.back f) record)

variable (hbase64 : ∀ bytes, Base64Engine.decode? (Base64Engine.encode bytes) = some bytes)

include hbase64 in
theorem Value.Fits.toValue_single {value : Value} {type : ValueType}
    (h : value.Fits set (.single type)) (hnested : ∀ message fields plan, value = .message fields →
      set.message? message = some plan → Record.Fits set plan fields → ReadBack set f plan fields)
    (name : String) (items : Option ValueType) :
    (value.sent set f (some type) items).toValue set name (.single type) =
      .ok (value.back f) := by
  cases h with
  | scalar type x => exact toValue_scalar f hbase64 name type x (some (.scalar type)) items
  | enum name symbol => rfl
  | message hplan hrecord =>
      have hback := hnested _ _ _ rfl hplan hrecord
      unfold ReadBack at hback
      simp only [Value.sent, Value.toJson, PlanSet.nested?, hplan, Json.mapDoubles, Json.toValue,
        PlanSet.nestedPlan, Except.ok_bind, hback]
      rfl

omit [Base64Engine] in
theorem FieldPlan.elementType?_of_room {field : FieldPlan} {type : ValueType}
    (h : field.room = .single type ∨ field.room = .list type) :
    field.elementType? set = some type := by
  unfold FieldPlan.room at h
  cases hmap : field.isMapEntry with
  | true => simp [hmap] at h
  | false =>
      rw [FieldPlan.elementType?_of_not_map hmap]
      by_cases hrepeated : field.cardinality = .repeated <;> simp_all

omit [Base64Engine] in
theorem FieldPlan.of_room_map {field : FieldPlan} {entry : ValueType}
    (h : field.room = .map entry) : field.isMapEntry = true ∧ field.type = entry := by
  unfold FieldPlan.room at h
  cases hmap : field.isMapEntry with
  | true => simpa [hmap] using h
  | false => by_cases hrepeated : field.cardinality = .repeated <;> simp_all

include hbase64 in
/-- What a field has room for is read back into that field. -/
theorem Value.Fits.toValue {value : Value} {field : FieldPlan} (h : value.Fits set field.room)
    (hnested : ∀ message fields plan, .message fields ∈ value.elements →
      set.message? message = some plan → Record.Fits set plan fields → ReadBack set f plan fields)
    (name : String) :
    (value.sent set f (field.elementType? set) (field.elementType? set)).toValue set name
      field.room = .ok (value.back f) := by
  generalize hroom : field.room = room at h
  have hitem : ∀ {item : Value} {type : ValueType}, item ∈ value.elements →
      item.Fits set (.single type) → (item.sent set f (some type) none).toValue set name
        (.single type) = .ok (item.back f) := fun hmem hfits =>
    hfits.toValue_single hbase64
      (fun message fields plan heq => hnested message fields plan (heq ▸ hmem)) name none
  cases h with
  | scalar type x =>
      rw [FieldPlan.elementType?_of_room (Or.inl hroom)]
      exact toValue_scalar f hbase64 name type x _ _
  | enum enum symbol => rfl
  | message hplan hrecord =>
      rw [FieldPlan.elementType?_of_room (Or.inl hroom)]
      exact (Value.Fits.message hplan hrecord).toValue_single hbase64
        (fun message fields plan heq => hnested message fields plan (by simp [heq])) name _
  | @list type items hitems =>
      rw [FieldPlan.elementType?_of_room (Or.inr hroom)]
      have hread := itemsOfJson_map fun item hmem => hitem hmem (hitems item hmem)
      simp only [Value.sent, Value.toJson, Json.mapDoubles, Json.toValue, Value.back,
        Value.mapFloats]
      rw [Json.mapItems_eq_map, arrayItems_eq_map, List.map_map, Value.mapItems_eq_map]
      exact congrArg (Value.list <$> ·) hread
  | @map entry plan key type entries hplan hentry hincreasing hkeys hvalues =>
      obtain ⟨hmap, htype⟩ := FieldPlan.of_room_map hroom
      rw [FieldPlan.elementType?_of_entry hmap htype hplan hentry]
      have hentries : ∀ entry ∈ entries, MapKey.ofText? (.scalar key) entry.1.text = some entry.1 ∧
          (entry.2.sent set f (some type) none).toValue set name (.single type) =
            .ok (entry.2.back f) := by
        intro entry hmem
        obtain ⟨x, hx⟩ := (hkeys entry hmem).exists_ofScalar
        exact ⟨MapKey.ofText?_text hx,
          hitem (List.mem_map.mpr ⟨entry, hmem, rfl⟩) (hvalues entry hmem)⟩
      obtain ⟨pairs, hpairs, hsorted⟩ := exists_entriesOfJson f hincreasing hentries
      have htypes : set.entryTypes name (.message entry) = .ok (.scalar key, type) := by
        simp only [PlanSet.entryTypes, PlanSet.nestedPlan, hplan, Except.ok_bind, hentry.field?_key,
          hentry.field?_value]
        rfl
      simp only [Value.sent, Value.toJson, Json.mapDoubles, Json.toValue, htypes, Except.ok_bind,
        hpairs, Except.pure_eq_ok, hsorted, Value.back, Value.mapFloats, Value.mapEntries_eq_map]

/-! ## Messages -/

omit [Base64Engine] in
/-- Among fields of different names the last one of a name is the first. -/
theorem MessagePlan.lastField?_of_field? {plan : MessagePlan}
    (hnames : (plan.fields.map (·.name)).Nodup) {name : String} {field : FieldPlan}
    (h : plan.field? name = some field) : plan.lastField? name = some field := by
  obtain ⟨hmem, hname⟩ := mem_of_field? h
  have hsome : (plan.lastField? name).isSome :=
    List.find?_isSome.mpr ⟨field, List.mem_reverse.mpr hmem, by simp [hname]⟩
  obtain ⟨last, hlast⟩ := Option.isSome_iff_exists.mp hsome
  have hlastMem : last ∈ plan.fields := List.mem_reverse.mp (List.mem_of_find?_eq_some hlast)
  have hlastName : last.name = name := by simpa using List.find?_some hlast
  rw [hlast, List.inj_on_of_nodup_map hnames hlastMem hmem (hlastName.trans hname.symm)]

theorem fieldsOfJson_cons {plan : MessagePlan} {name : String} {json : Json} {field : FieldPlan}
    {value : Value} {rest : List (String × Json)} {fields : Record}
    (hfound : plan.field? name = some field) (hnull : json ≠ .null)
    (hvalue : json.toValue set name field.room = .ok value)
    (hrest : fieldsOfJson set plan rest = .ok fields) :
    fieldsOfJson set plan ((name, json) :: rest) = .ok ((name, value) :: fields) := by
  rw [fieldsOfJson, hfound]
  cases json with
  | null => exact absurd rfl hnull
  | _ =>
      dsimp only
      rw [hvalue, hrest]
      rfl

include hbase64 in
/-- A message that fits its plan is read back from its members. -/
theorem Record.Fits.readBack (hset : set.Named) {plan : MessagePlan} (hplan : plan.Named set)
    {record : Record} (h : record.Fits set plan) : ReadBack set f plan record := by
  induction record using Record.nesting_induction generalizing plan with
  | step record ih =>
      obtain ⟨-, hknown, hfields⟩ := h
      -- any of its fields are read back one after the other
      have hpairs : ∀ pairs : List (String × Value), (∀ pair ∈ pairs, pair ∈ record) →
          ReadBack set f plan pairs := by
        intro pairs
        induction pairs with
        | nil => exact fun _ => rfl
        | cons pair rest ihRest =>
            intro hall
            obtain ⟨hpair, hrest⟩ := List.forall_mem_cons.mp hall
            obtain ⟨field, hfound⟩ := Option.isSome_iff_exists.mp (hknown pair hpair)
            have hvalue := (hfields pair hpair field hfound).toValue hbase64
              (fun message fields inner hmem hinner =>
                ih pair hpair fields hmem (hset.of_message? hinner)) pair.1
            obtain ⟨name, value⟩ := pair
            have hlast := MessagePlan.lastField?_of_field? hplan.names hfound
            have hback := fieldsOfJson_cons hfound (value.sent_ne_null f _ _) hvalue (ihRest hrest)
            unfold ReadBack
            simp only [plannedMembers, hlast, Json.mapMembers, Record.mapFloats]
            exact hback
      exact hpairs record fun _ h => h

end Values

/-- Where byte strings are read back from their texts, every message that fits
a declared plan becomes a JSON value and is read back from it, with the
standard NaN in place of any NaN. All messages that decoding answers fit, and
so do all messages that can be encoded. -/
theorem PlanSet.ofJson_toJson [Base64Engine]
    (hbase64 : ∀ bytes, Base64Engine.decode? (Base64Engine.encode bytes) = some bytes)
    {source : String} {schema : Schema} {set : PlanSet}
    (hcompile : compile source = .ok schema) (hdistinct : schema.DistinctNames)
    (hbuild : schema.build = .ok set) {message : String} {plan : MessagePlan}
    (hplan : set.declared? message = some plan) :
    (∀ record : Record, record.Fits set plan → ∃ json, set.toJson message record = .ok json ∧
      set.ofJson message json =
        .ok (Record.mapFloats Binary32.standard Binary64.standard record)) ∧
      (∀ bytes record, set.decode plan bytes = .ok record → record.Fits set plan) ∧
      ∀ (record : Record) bytes, record.Ordered → set.encode plan record = .ok bytes →
        record.Fits set plan := by
  have hset := named_of_build hcompile hdistinct hbuild
  have hmessage : set.message? message = some plan := (Option.filter_eq_some_iff.mp hplan).1
  have hnamed := hset.of_message? hmessage
  refine ⟨?_, ?_, ?_⟩
  · intro record hfits
    have hback : ReadBack set id plan record := hfits.readBack hbase64 hset hnamed
    rw [ReadBack, Json.mapMembers_id, Binary32.back_id, Binary64.back_id] at hback
    refine ⟨.object (plannedMembers set plan record), ?_, ?_⟩
    · simp only [PlanSet.toJson, hmessage]
    · simp only [PlanSet.ofJson, hplan, hback]
  · exact fun bytes record hdecode => hset.fits_of_decode hnamed hdecode
  · exact fun record bytes hordered hencode => hset.fits_of_encode hnamed hordered hencode

/-! ## Probes

A schema of numbers that need not be finite, in messages that nest in lists.
-/

def probeSource : String :=
  "message Probe \x7b optional double mark = 1; repeated Probe parts = 2; " ++
    "optional float level = 3; \x7d"

def probePlan : MessagePlan :=
  .ofFields "Probe" false
    [(⟨"mark", 1, .detached "double", .optional, none, false⟩, .scalar .double),
      (⟨"parts", 2, .detached "Probe", .repeated, none, false⟩, .message "Probe"),
      (⟨"level", 3, .detached "float", .optional, none, false⟩, .scalar .float)]

def probePlans : PlanSet := ⟨none, [], [probePlan]⟩

theorem compile_probeSource : ∃ schema, compile probeSource = .ok schema ∧
    schema.DistinctFields ∧ schema.build = .ok probePlans :=
  Except.exists_of_any (by decide +kernel)

/-- A probe with a negative NaN and, in a part, an infinite mark. -/
def probeRecord : Record :=
  [("level", .float ⟨0xffc00001⟩),
    ("parts", .list [.message [("mark", .double ⟨0x7ff0000000000000⟩)]])]

theorem fits_markedProbe (x : Binary64) :
    Record.Fits probePlans probePlan [("mark", .double x)] := by
  refine .intro (Sorted.increasing_cons.mpr ⟨by simp, Sorted.increasing_nil⟩) ?_ ?_
  · rintro pair (_ | ⟨_, ⟨⟩⟩)
    rfl
  · rintro pair (_ | ⟨_, ⟨⟩⟩) field hfield
    cases hfield
    exact .scalar .double x

theorem fits_probeRecord : Record.Fits probePlans probePlan probeRecord := by
  refine .intro ?_ ?_ ?_
  · refine Sorted.increasing_cons.mpr ⟨?_, Sorted.increasing_cons.mpr ⟨by simp, .nil⟩⟩
    decide
  · rintro pair (_ | ⟨_, _ | ⟨_, ⟨⟩⟩⟩) <;> rfl
  · rintro pair (_ | ⟨_, _ | ⟨_, ⟨⟩⟩⟩) field hfield <;> cases hfield
    · exact .scalar .float _
    · exact .list fun item hitem => by
        rw [List.mem_singleton.mp hitem]
        exact .message rfl (fits_markedProbe _)

/-- The law at a probe. -/
theorem ofJson_toJson_probe : ∃ json, probePlans.toJson "Probe" probeRecord = .ok json ∧
    probePlans.ofJson "Probe" json = .ok [("level", .float ⟨0x7fc00000⟩),
      ("parts", .list [.message [("mark", .double ⟨0x7ff0000000000000⟩)]])] := by
  obtain ⟨schema, hcompile, hdistinct, hbuild⟩ := compile_probeSource
  have hplan : probePlans.declared? "Probe" = some probePlan := rfl
  exact (PlanSet.ofJson_toJson Text.Base64.decode?_encode hcompile hdistinct.names hbuild hplan).1
    probeRecord fits_probeRecord

end WireCodec
