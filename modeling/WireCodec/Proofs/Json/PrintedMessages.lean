import Mathlib.Order.Lattice
import WireCodec.Proofs.Codec.Reencode
import WireCodec.Proofs.Json.Printed
import WireCodec.Proofs.Json.RoundTrip

/-! # Messages through printed JSON

A message that fits its plan is read back from the text of its JSON value if
fewer than 128 messages, lists and maps are open in it at once. Its singles are
kept. A double comes back as the double that its text is read as, which need
not be the same.
-/

namespace WireCodec

/-! ## Containers -/

mutual

/-- How many messages, lists and maps are open at once in a value. -/
def Value.containers : Value → Nat
  | .message fields => Record.containers fields + 1
  | .list items => Value.itemContainers items + 1
  | .map entries => Value.entryContainers entries + 1
  | _ => 0

/-- How many containers are open at once in the fields of a message. -/
def Record.containers : List (String × Value) → Nat
  | [] => 0
  | (_, value) :: rest => max value.containers (Record.containers rest)

/-- How many containers are open at once in the items of a list. -/
def Value.itemContainers : List Value → Nat
  | [] => 0
  | item :: rest => max item.containers (Value.itemContainers rest)

/-- How many containers are open at once in the entries of a map. -/
def Value.entryContainers : List (MapKey × Value) → Nat
  | [] => 0
  | (_, value) :: rest => max value.containers (Value.entryContainers rest)

end

theorem Value.itemContainers_le_iff {items : List Value} {bound : Nat} :
    itemContainers items ≤ bound ↔ ∀ item ∈ items, item.containers ≤ bound := by
  induction items with
  | nil => simp [itemContainers]
  | cons item rest ih => rw [itemContainers, Nat.max_le, ih, List.forall_mem_cons]

theorem Value.entryContainers_le_iff {entries : List (MapKey × Value)} {bound : Nat} :
    entryContainers entries ≤ bound ↔ ∀ entry ∈ entries, entry.2.containers ≤ bound := by
  induction entries with
  | nil => simp [entryContainers]
  | cons entry rest ih => rw [entryContainers, Nat.max_le, ih, List.forall_mem_cons]

namespace Json

/-- A JSON value has a text in which a number of containers are open at once. -/
structure Prints (json : Json) (containers : Nat) : Prop where
  printable : json.Printable
  nesting : json.nesting = containers

theorem prints_ofInt64 (n : Int64) : Prints (.number (.ofInt64 n)) 0 := by
  refine ⟨.number ?_, rfl⟩
  unfold JsonNumber.ofInt64
  split
  next hneg => exact hneg
  next => trivial

theorem prints_ofDouble (x : Binary64) : Prints (.ofDouble x) 0 := by
  unfold ofDouble
  split
  next hfinite => exact ⟨.number hfinite, rfl⟩
  next => exact ⟨.string _, rfl⟩

end Json

section Values

variable [Base64Engine] {set : PlanSet}

theorem Value.prints_ofScalar (outer items : Option ValueType) (type : ScalarType)
    (x : type.Carrier) : ((Value.ofScalar type x).toJson set outer items).Prints
      (Value.ofScalar type x).containers := by
  cases type with
  | double | float => exact Json.prints_ofDouble _
  | int32 | sint32 | sfixed32 | int64 | sint64 | sfixed64 => exact Json.prints_ofInt64 _
  | uint32 | fixed32 | uint64 | fixed64 => exact ⟨.number trivial, rfl⟩
  | bool => exact ⟨.bool _, rfl⟩
  | string | bytes => exact ⟨.string _, rfl⟩

/-- The members for a message have texts that are as nested as its fields. -/
structure PrintsMembers (set : PlanSet) (plan : MessagePlan) (record : Record) : Prop where
  printable : ∀ member ∈ plannedMembers set plan record, member.2.Printable
  nesting : Json.membersNesting (plannedMembers set plan record) = Record.containers record

theorem PrintsMembers.prints {plan : MessagePlan} {record : Record}
    (h : PrintsMembers set plan record)
    (hincreasing : Sorted.Increasing (plannedMembers set plan record)) :
    (Json.object (plannedMembers set plan record)).Prints (Value.message record).containers :=
  ⟨.object hincreasing h.printable, congrArg (· + 1) h.nesting⟩

/-- The names of members are names of fields, in order. -/
theorem increasing_plannedMembers (plan : MessagePlan) {record : Record}
    (h : Sorted.Increasing record) : Sorted.Increasing (plannedMembers set plan record) := by
  have hnames : ((plannedMembers set plan record).map (·.1)).Sublist (record.map (·.1)) := by
    clear h
    induction record with
    | nil => exact .slnil
    | cons pair rest ih =>
        obtain ⟨name, value⟩ := pair
        rw [plannedMembers]
        split
        next => exact ih.cons_cons name
        next => exact ih.cons name
  have hordered : (record.map (·.1)).Pairwise fun before after => compare before after = .lt :=
    List.pairwise_map.mpr h
  exact List.pairwise_map.mp (hordered.sublist hnames)

theorem Value.Fits.prints_single {value : Value} {type : ValueType}
    (h : value.Fits set (.single type)) (hnested : ∀ message fields plan, value = .message fields →
      set.message? message = some plan → Record.Fits set plan fields →
        PrintsMembers set plan fields) (items : Option ValueType) :
    (value.toJson set (some type) items).Prints value.containers := by
  cases h with
  | scalar type x => exact prints_ofScalar _ _ type x
  | enum name symbol => exact ⟨.string symbol, rfl⟩
  | message hplan hrecord =>
      have hmembers := hnested _ _ _ rfl hplan hrecord
      obtain ⟨hincreasing, -, -⟩ := hrecord
      simp only [Value.toJson, PlanSet.nested?, hplan]
      exact hmembers.prints (increasing_plannedMembers _ hincreasing)

/-- The JSON value for what a field has room for has a text. -/
theorem Value.Fits.prints {value : Value} {field : FieldPlan} (h : value.Fits set field.room)
    (hnested : ∀ message fields plan, .message fields ∈ value.elements →
      set.message? message = some plan → Record.Fits set plan fields →
        PrintsMembers set plan fields) :
    (value.toJson set (field.elementType? set) (field.elementType? set)).Prints
      value.containers := by
  generalize hroom : field.room = room at h
  have hitem : ∀ {item : Value} {type : ValueType}, item ∈ value.elements →
      item.Fits set (.single type) → (item.toJson set (some type) none).Prints item.containers :=
    fun hmem hfits => hfits.prints_single
      (fun message fields plan heq => hnested message fields plan (heq ▸ hmem)) none
  cases h with
  | scalar type x => exact prints_ofScalar _ _ type x
  | enum name symbol => exact ⟨.string symbol, rfl⟩
  | message hplan hrecord =>
      rw [FieldPlan.elementType?_of_room (Or.inl hroom)]
      exact (Value.Fits.message hplan hrecord).prints_single (fun message fields plan heq =>
        hnested message fields plan (by simp [heq])) _
  | @list type items hitems =>
      rw [FieldPlan.elementType?_of_room (Or.inr hroom)]
      have hprints : ∀ item ∈ items, (item.toJson set (some type) none).Prints item.containers :=
        fun item hmem => hitem hmem (hitems item hmem)
      simp only [Value.toJson, arrayItems_eq_map]
      refine ⟨.array ?_, congrArg (· + 1) (eq_of_forall_ge_iff fun bound => ?_)⟩
      · exact List.forall_mem_map.mpr fun item hmem => (hprints item hmem).printable
      · rw [Json.itemsNesting_le_iff, Value.itemContainers_le_iff, List.forall_mem_map]
        exact forall₂_congr fun item hmem => by rw [(hprints item hmem).nesting]
  | @map entry plan key type entries hplan hentry hincreasing hkeys hvalues =>
      obtain ⟨hmap, htype⟩ := FieldPlan.of_room_map hroom
      rw [FieldPlan.elementType?_of_entry hmap htype hplan hentry]
      have hprints : ∀ entry ∈ entries,
          (entry.2.toJson set (some type) none).Prints entry.2.containers :=
        fun entry hmem => hitem (List.mem_map.mpr ⟨entry, hmem, rfl⟩) (hvalues entry hmem)
      have htexts : ((entryMembers set (some type) entries).map (·.1)).Nodup := by
        rw [entryMembers_eq_map, List.map_map]
        refine List.pairwise_map.mpr (List.Pairwise.imp_of_mem ?_ hincreasing)
        intro before after hbefore hafter hlt htext
        obtain ⟨x, hx⟩ := (hkeys before hbefore).exists_ofScalar
        obtain ⟨y, hy⟩ := (hkeys after hafter).exists_ofScalar
        have hsame : some before.1 = some after.1 := by
          rw [← MapKey.ofText?_text hx, ← MapKey.ofText?_text hy]
          exact congrArg _ htext
        exact Sorted.ne_of_compare_eq_lt hlt (Option.some.inj hsame)
      -- the members are those of the entries, in another order
      have hmembers : ∀ motive : Json → Prop, (∀ member ∈ Sorted.ofList (entryMembers set
          (some type) entries), motive member.2) ↔
            ∀ entry ∈ entries, motive (entry.2.toJson set (some type) none) := by
        intro motive
        simp only [(Sorted.ofList_perm htexts).mem_iff]
        rw [entryMembers_eq_map, List.forall_mem_map]
      simp only [Value.toJson]
      refine ⟨.object (Sorted.increasing_ofList _) ?_,
        congrArg (· + 1) (eq_of_forall_ge_iff fun bound => ?_)⟩
      · exact (hmembers _).mpr fun entry hmem => (hprints entry hmem).printable
      · rw [Json.membersNesting_le_iff, Value.entryContainers_le_iff,
          hmembers fun json => json.nesting ≤ bound]
        exact forall₂_congr fun entry hmem => by rw [(hprints entry hmem).nesting]

/-- The members for a message that fits have texts. -/
theorem Record.Fits.printsMembers (hset : set.Named) {plan : MessagePlan} (hplan : plan.Named set)
    {record : Record} (h : record.Fits set plan) : PrintsMembers set plan record := by
  induction record using Record.nesting_induction generalizing plan with
  | step record ih =>
      obtain ⟨-, hknown, hfields⟩ := h
      have hpairs : ∀ pairs : List (String × Value), (∀ pair ∈ pairs, pair ∈ record) →
          PrintsMembers set plan pairs := by
        intro pairs
        induction pairs with
        | nil => exact fun _ => ⟨by simp [plannedMembers], rfl⟩
        | cons pair rest ihRest =>
            intro hall
            obtain ⟨hpair, hrest⟩ := List.forall_mem_cons.mp hall
            obtain ⟨field, hfound⟩ := Option.isSome_iff_exists.mp (hknown pair hpair)
            have hvalue := (hfields pair hpair field hfound).prints
              fun message fields inner hmem hinner =>
                ih pair hpair fields hmem (hset.of_message? hinner)
            obtain ⟨name, value⟩ := pair
            have hlast := MessagePlan.lastField?_of_field? hplan.names hfound
            have hmembers := ihRest hrest
            constructor
            · simp only [plannedMembers, hlast]
              exact List.forall_mem_cons.mpr ⟨hvalue.printable, hmembers.printable⟩
            · simp only [plannedMembers, hlast, Json.membersNesting, Record.containers,
                hvalue.nesting, hmembers.nesting]
      exact hpairs record fun _ h => h

end Values

/-! ## Texts -/

theorem Binary32.lt_infinity_of_widen {x : Binary32} (h : x.widen.isFinite = true) :
    x.magnitude < FloatFormat.single.infinity := by
  by_contra hinfinite
  have hconvert : FloatFormat.double.convert .single x.magnitude = FloatFormat.double.infinity ∨
      FloatFormat.double.convert .single x.magnitude = FloatFormat.double.quietNaN := by
    unfold FloatFormat.convert
    rw [if_neg hinfinite]
    split
    next => exact .inl rfl
    next => exact .inr rfl
  rw [Binary64.isFinite_iff, widen] at h
  rcases hconvert with hconvert | hconvert <;>
    rw [hconvert, Binary64.magnitude_ofMagnitude (by decide)] at h <;>
    exact absurd h (by decide)

section Printed

variable [Base64Engine] [JsonText] {reread : Binary64 → Binary64} (htexts : JsonText.Lawful reread)

include htexts in
omit [Base64Engine] in
/-- A single is written as a double and comes back as it was, but for the sign
and the payload of a NaN. -/
theorem Binary32.back_of_lawful : Binary32.back reread = Binary32.standard := by
  funext x
  unfold back Binary64.back
  split
  next hfinite =>
    have hsingle := lt_infinity_of_widen hfinite
    rw [narrow_of_near hsingle (htexts.near (moderate_widen hsingle)), standard_of_lt hsingle]
  next => exact x.narrow_standard_widen

variable (hbase64 : ∀ bytes, Base64Engine.decode? (Base64Engine.encode bytes) = some bytes)

include htexts hbase64 in
/-- A message that fits is read back from its printed JSON value if fewer than
128 containers are open in it at once, and is refused otherwise. -/
theorem Record.Fits.parse?_print {set : PlanSet} (hset : set.Named) {message : String}
    {plan : MessagePlan} (hplan : set.declared? message = some plan) {record : Record}
    (h : record.Fits set plan) :
    ∃ json, set.toJson message record = .ok json ∧ ∀ layout : JsonLayout,
      if (Value.message record).containers < 128 then
        ∃ read, JsonText.parse? (JsonText.print layout json) = some read ∧
          set.ofJson message read =
            .ok (Record.mapFloats Binary32.standard (Binary64.back reread) record)
      else JsonText.parse? (JsonText.print layout json) = none := by
  have hmessage : set.message? message = some plan := (Option.filter_eq_some_iff.mp hplan).1
  have hnamed := hset.of_message? hmessage
  have hincreasing : Sorted.Increasing record := by
    cases h
    assumption
  have hprints := (h.printsMembers hset hnamed).prints (increasing_plannedMembers plan hincreasing)
  have hback : ReadBack set reread plan record := h.readBack hbase64 hset hnamed
  rw [ReadBack, Binary32.back_of_lawful htexts] at hback
  refine ⟨.object (plannedMembers set plan record), ?_, fun layout => ?_⟩
  · simp only [PlanSet.toJson, hmessage]
  · rw [← hprints.nesting]
    split
    next hnesting =>
      refine ⟨_, htexts.parse?_print hprints.printable hnesting layout, ?_⟩
      simp only [Json.mapDoubles, PlanSet.ofJson, hplan, hback]
    next hnesting =>
      exact htexts.parse?_deep hprints.printable (Nat.not_lt.mp hnesting) layout

end Printed

/-- What is decoded is read back from its printed JSON value, with the standard
NaN in place of any NaN and every finite double as it is read from its text,
if fewer than 128 containers are open in it at once. Otherwise the text is
refused. -/
theorem PlanSet.ofJson_of_decode [Base64Engine] [JsonText]
    (hbase64 : ∀ bytes, Base64Engine.decode? (Base64Engine.encode bytes) = some bytes)
    {reread : Binary64 → Binary64} (htexts : JsonText.Lawful reread)
    {source : String} {schema : Schema} {set : PlanSet}
    (hcompile : compile source = .ok schema) (hdistinct : schema.DistinctFields)
    (hbuild : schema.build = .ok set) {message : String} {plan : MessagePlan}
    (hplan : set.declared? message = some plan) {bytes : Bytes} {record : Record}
    (hdecode : set.decode plan bytes = .ok record) :
    ∃ json, set.toJson message record = .ok json ∧ ∀ layout : JsonLayout,
      if (Value.message record).containers < 128 then
        ∃ read, JsonText.parse? (JsonText.print layout json) = some read ∧
          set.ofJson message read =
            .ok (Record.mapFloats Binary32.standard (Binary64.back reread) record)
      else JsonText.parse? (JsonText.print layout json) = none := by
  have hset := named_of_build hcompile hdistinct.names hbuild
  have hmessage : set.message? message = some plan := (Option.filter_eq_some_iff.mp hplan).1
  exact (hset.fits_of_decode (hset.of_message? hmessage) hdecode).parse?_print htexts hbase64 hset
    hplan

/-! ## Probes in probes -/

/-- A marked probe inside a number of probes that have no other parts. -/
def nestedProbe (x : Binary64) : Nat → Record
  | 0 => [("mark", .double x)]
  | count + 1 => [("parts", .list [.message (nestedProbe x count)])]

def nestedProbeTree (x : Binary64) : Nat → List (Key × WireValue)
  | 0 => [(⟨1, 1⟩, ScalarType.wire .double x)]
  | count + 1 => [(⟨2, 2⟩, .message (nestedProbeTree x count))]

/-- The bytes of a nested probe. -/
def nestedProbeBytes (x : Binary64) (count : Nat) : Bytes :=
  (WireValue.messageBytes (nestedProbeTree x count)).toArray

section Nested

variable (x : Binary64)

theorem probePlans_coherent : probePlans.Coherent := by
  obtain ⟨schema, hcompile, hdistinct, hbuild⟩ := compile_probeSource
  exact coherent_of_build hcompile hdistinct hbuild

theorem probePlan_coherent : probePlan.Coherent probePlans :=
  probePlans_coherent probePlan List.mem_cons_self

theorem probePlans_declared : probePlans.declared? "Probe" = some probePlan := rfl

theorem probePlan_fields : probePlan.fields = [⟨"mark", 1, .optional, .scalar .double, false, false⟩,
    ⟨"parts", 2, .repeated, .message "Probe", false, false⟩,
    ⟨"level", 3, .optional, .scalar .float, false, false⟩] :=
  rfl

theorem messageTree_nestedProbe (count : Nat) :
    messageTree probePlans probePlan (nestedProbe x count) = .ok (nestedProbeTree x count) := by
  induction count with
  | zero =>
      let own : FieldPlan → List WireValue := fun field =>
        if field.name = "mark" then [ScalarType.wire .double x] else []
      refine (messageTree_eq_ok probePlan_coherent.named).mpr ⟨rfl, own, ?_, rfl⟩
      rw [probePlan_fields]
      simp only [List.forall_mem_cons]
      exact ⟨.single rfl (.scalar .double x), .absent, .absent, by simp⟩
  | succ count ih =>
      let own : FieldPlan → List WireValue := fun field =>
        if field.name = "parts" then [.message (nestedProbeTree x count)] else []
      refine (messageTree_eq_ok probePlan_coherent.named).mpr ⟨rfl, own, ?_, rfl⟩
      rw [probePlan_fields]
      simp only [List.forall_mem_cons]
      exact ⟨.absent, .each rfl (.cons (.message rfl ih) .nil), .absent, by simp⟩

theorem ordered_nestedProbe (count : Nat) : Record.Ordered (nestedProbe x count) := by
  induction count with
  | zero =>
      refine .intro ?_ ?_ ?_ <;>
        simp [nestedProbe, Sorted.increasing_cons, Sorted.increasing_nil, Value.elements]
  | succ count ih =>
      refine .intro ?_ ?_ ?_
      · simp [nestedProbe, Sorted.increasing_cons, Sorted.increasing_nil]
      · simp [nestedProbe]
      · simpa [nestedProbe, Value.elements] using ih

theorem complete_nestedProbe (count : Nat) :
    probePlans.Complete probePlan (nestedProbe x count) := by
  have hown : ∀ record : Record, ∀ field ∈ probePlan.fields, field.cardinality = .required →
      Record.contains record field.name = true := by
    intro record field hfield
    simp only [probePlan_fields, List.mem_cons, List.not_mem_nil, or_false] at hfield
    rcases hfield with rfl | rfl | rfl <;> simp
  induction count with
  | zero => exact .intro (hown _) (by simp [nestedProbe, Value.elements])
  | succ count ih =>
      refine .intro (hown _) ?_
      simp only [nestedProbe, List.forall_mem_cons]
      refine ⟨?_, by simp⟩
      intro field hfield inner hinner fields hmem
      have hparts : field = ⟨"parts", 2, .repeated, .message "Probe", false, false⟩ :=
        Option.some.inj (hfield.symm.trans rfl)
      subst hparts
      obtain rfl : inner = probePlan := Option.some.inj (hinner.symm.trans rfl)
      obtain rfl : fields = nestedProbe x count := by simpa [Value.elements] using hmem
      exact ih

theorem canonical_nestedProbe (count : Nat) :
    probePlans.canonical probePlan (nestedProbe x count) = nestedProbe x count := by
  unfold PlanSet.canonical
  induction count with
  | zero => rfl
  | succ count ih =>
      have hparts : probePlan.field? "parts" =
        some ⟨"parts", 2, .repeated, .message "Probe", false, false⟩ := rfl
      have hprobe : probePlans.nested? (some (.message "Probe")) = some probePlan := rfl
      simp only [nestedProbe, normalFields, Value.isEmpty, Bool.false_eq_true, if_false, hparts,
        Option.bind_some, FieldPlan.elementType?, Value.normal, normalItems, hprobe, ih]

theorem messageFits_nestedProbeTree {count : Nat} (hcount : count ≤ 2 ^ 16) :
    WireValue.MessageFits (nestedProbeTree x count) := by
  have hmark : Key.form ⟨1, 1⟩ = [9] := Varint.encode_of_lt (by decide)
  have hparts : Key.form ⟨2, 2⟩ = [18] := Varint.encode_of_lt (by decide)
  have hlength : ∀ count, (WireValue.messageBytes (nestedProbeTree x count)).length ≤
      6 * count + 9 := by
    intro count
    induction count with
    | zero =>
        have hdouble : (ScalarType.wire .double x).bytes.length = 8 := littleEndian_length ..
        simp [nestedProbeTree, WireValue.messageBytes, hmark, hdouble]
    | succ count ih =>
        have hform := length_delimitedForm_le (WireValue.messageBytes (nestedProbeTree x count))
        simp only [nestedProbeTree, WireValue.messageBytes, WireValue.bytes, hparts,
          List.length_append, List.length_cons, List.length_nil] at hform ⊢
        omega
  have hbytes := hlength count
  exact WireValue.messageFits_of_length _ (by omega)

theorem nestingDepth_nestedProbe (count : Nat) :
    probePlans.nestingDepth probePlan (nestedProbe x count) = count := by
  rw [PlanSet.nestingDepth, messageTree_nestedProbe]
  induction count with
  | zero => rfl
  | succ count ih => simpa [nestedProbeTree, WireValue.messageDepth, WireValue.depth] using ih

theorem decode_nestedProbeBytes {count : Nat} (hcount : count ≤ nestingLimit) :
    probePlans.decode probePlan (nestedProbeBytes x count) = .ok (nestedProbe x count) := by
  have hlimit : nestingLimit = 100 := rfl
  have hdecode := PlanSet.decode_messageBytes probePlans_coherent probePlan_coherent
    (ordered_nestedProbe x count) (complete_nestedProbe x count) (messageTree_nestedProbe x count)
    (messageFits_nestedProbeTree x (by omega))
  rwa [nestingDepth_nestedProbe, if_pos hcount, canonical_nestedProbe] at hdecode

theorem containers_nestedProbe (count : Nat) :
    (Value.message (nestedProbe x count)).containers = 2 * count + 1 := by
  induction count with
  | zero => rfl
  | succ count ih =>
      simp only [nestedProbe, Value.containers, Record.containers, Value.itemContainers] at ih ⊢
      omega

theorem mapFloats_nestedProbe (single : Binary32 → Binary32) (double : Binary64 → Binary64)
    (count : Nat) : Record.mapFloats single double (nestedProbe x count) =
      nestedProbe (double x) count := by
  induction count with
  | zero => rfl
  | succ count ih =>
      simp only [nestedProbe, Record.mapFloats, Value.mapFloats, Value.mapItems, ih]

/-- The double nearest to 12 * 10²³, which is not the rounded product of 12 and
the rounded power of ten. -/
def driftingDouble : Binary64 := ⟨0x44efc3842bd1f072⟩

theorem back_driftingDouble :
    Binary64.back Binary64.reread driftingDouble = ⟨0x44efc3842bd1f071⟩ := by
  decide +kernel

theorem fits_nestedProbe {count : Nat} (hcount : count ≤ nestingLimit) :
    Record.Fits probePlans probePlan (nestedProbe x count) :=
  PlanSet.Named.fits_of_decode (fun plan hplan => (probePlans_coherent plan hplan).named)
    probePlan_coherent.named (decode_nestedProbeBytes x hcount)

end Nested

/-- As many probes in probes as a text may hold. -/
theorem ofJson_of_decode_nestedProbe :
    JsonText.Lawful Binary64.reread ∧
    probePlans.decode probePlan (nestedProbeBytes driftingDouble 63) =
        .ok (nestedProbe driftingDouble 63) ∧
      ∃ json, probePlans.toJson "Probe" (nestedProbe driftingDouble 63) = .ok json ∧
        ∀ layout : JsonLayout, ∃ read, JsonText.parse? (JsonText.print layout json) = some read ∧
          probePlans.ofJson "Probe" read = .ok (nestedProbe ⟨0x44efc3842bd1f071⟩ 63) := by
  obtain ⟨schema, hcompile, hdistinct, hbuild⟩ := compile_probeSource
  have hdecode := decode_nestedProbeBytes driftingDouble (by decide : 63 ≤ nestingLimit)
  obtain ⟨json, hjson, hread⟩ :=
    PlanSet.ofJson_of_decode Text.Base64.decode?_encode JsonText.lawful_reread hcompile hdistinct
      hbuild probePlans_declared hdecode
  rw [containers_nestedProbe, mapFloats_nestedProbe, back_driftingDouble,
    forall_congr fun _ => if_pos (by decide)] at hread
  exact ⟨JsonText.lawful_reread, hdecode, json, hjson, hread⟩

/-- With one probe more every text is refused of which that much is relied on,
and a double alone may come back as another one. -/
theorem printed_probe_refused :
    (∃ schema, compile probeSource = .ok schema ∧ schema.DistinctFields ∧
      schema.build = .ok probePlans) ∧ probePlans.declared? "Probe" = some probePlan ∧
    (probePlans.decode probePlan (nestedProbeBytes driftingDouble 64) =
        .ok (nestedProbe driftingDouble 64) ∧
      ∃ json, probePlans.toJson "Probe" (nestedProbe driftingDouble 64) = .ok json ∧
        ∀ [JsonText] (reread : Binary64 → Binary64), JsonText.Lawful reread →
          ∀ layout : JsonLayout, JsonText.parse? (JsonText.print layout json) = none) ∧
    JsonText.Lawful Binary64.reread ∧
    probePlans.decode probePlan (nestedProbeBytes driftingDouble 0) =
        .ok [("mark", .double driftingDouble)] ∧
      ∃ json, probePlans.toJson "Probe" [("mark", .double driftingDouble)] = .ok json ∧
        ∀ layout : JsonLayout, ∃ read, JsonText.parse? (JsonText.print layout json) = some read ∧
          probePlans.ofJson "Probe" read = .ok [("mark", .double ⟨0x44efc3842bd1f071⟩)] := by
  have hset : probePlans.Named := fun plan hplan => (probePlans_coherent plan hplan).named
  have hdeep := fits_nestedProbe driftingDouble (by decide : 64 ≤ nestingLimit)
  refine ⟨compile_probeSource, probePlans_declared, ⟨decode_nestedProbeBytes _ (by decide), ?_⟩,
    JsonText.lawful_reread, decode_nestedProbeBytes _ (by decide), ?_⟩
  · obtain ⟨json, hjson, -⟩ := hdeep.parse?_print JsonText.lawful_reread
      Text.Base64.decode?_encode hset probePlans_declared
    refine ⟨json, hjson, ?_⟩
    intro texts reread htexts layout
    obtain ⟨other, hother, hread⟩ := hdeep.parse?_print htexts Text.Base64.decode?_encode hset
      probePlans_declared
    obtain rfl := Except.ok.inj (hjson.symm.trans hother)
    rw [containers_nestedProbe, forall_congr fun _ => if_neg (by decide)] at hread
    exact hread layout
  · obtain ⟨json, hjson, hread⟩ := (fits_nestedProbe driftingDouble
      (Nat.zero_le nestingLimit)).parse?_print JsonText.lawful_reread Text.Base64.decode?_encode
        hset probePlans_declared
    rw [containers_nestedProbe, mapFloats_nestedProbe, back_driftingDouble,
      forall_congr fun _ => if_pos (by decide)] at hread
    exact ⟨json, hjson, hread⟩

end WireCodec
