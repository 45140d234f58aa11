import WireCodec.Codec.OfJson
import WireCodec.Proofs.Codec.Decoded
import WireCodec.Proofs.Codec.RoundTrip

/-! # Values that fit

A message fits a plan if every field that it has is one of the plan and holds
what the field has room for. What is decoded fits, and so does what can be
encoded. Required fields may be missing, lists and maps may be empty, and a
symbol need not be one of its enum.
-/

namespace WireCodec

mutual

/-- A value is of the kind that there is room for. -/
inductive Value.Fits (set : PlanSet) : FieldRoom → Value → Prop
  | scalar (type : ScalarType) (x : type.Carrier) :
      Value.Fits set (.single (.scalar type)) (.ofScalar type x)
  | enum (name symbol : String) : Value.Fits set (.single (.enum name)) (.enum symbol)
  | message {name : String} {plan : MessagePlan} {record : Record}
      (hplan : set.message? name = some plan) (hrecord : Record.Fits set plan record) :
      Value.Fits set (.single (.message name)) (.message record)
  | list {type : ValueType} {items : List Value}
      (hitems : ∀ item ∈ items, Value.Fits set (.single type) item) :
      Value.Fits set (.list type) (.list items)
  | map {name : String} {plan : MessagePlan} {key : ScalarType} {type : ValueType}
      {entries : List (MapKey × Value)} (hplan : set.message? name = some plan)
      (hentry : plan.IsEntry key type) (hincreasing : Sorted.Increasing entries)
      (hkeys : ∀ entry ∈ entries, Value.Fits set (.single (.scalar key)) (.ofMapKey entry.1))
      (hvalues : ∀ entry ∈ entries, Value.Fits set (.single type) entry.2) :
      Value.Fits set (.map (.message name)) (.map entries)

/-- A message has fields of a plan only, in order and with values that fit. -/
inductive Record.Fits (set : PlanSet) : MessagePlan → Record → Prop
  | intro {plan : MessagePlan} {record : Record} (hincreasing : Sorted.Increasing record)
      (hknown : ∀ pair ∈ record, (plan.field? pair.1).isSome)
      (hfields : ∀ pair ∈ record, ∀ field, plan.field? pair.1 = some field →
        Value.Fits set field.room pair.2) : Record.Fits set plan record

end

variable {set : PlanSet} {field : FieldPlan}

/-! ## Room of a field -/

theorem FieldPlan.room_of_single (hmap : field.isMapEntry = false)
    (hsingle : field.cardinality ≠ .repeated) : field.room = .single field.type := by
  simp [FieldPlan.room, hmap, hsingle]

theorem FieldPlan.room_of_list (hmap : field.isMapEntry = false)
    (hrepeated : field.cardinality = .repeated) : field.room = .list field.type := by
  simp [FieldPlan.room, hmap, hrepeated]

theorem FieldPlan.room_of_map (hmap : field.isMapEntry = true) : field.room = .map field.type := by
  simp [FieldPlan.room, hmap]

theorem FieldPlan.room_of_form_single (hform : field.form = .single) :
    field.room = .single field.type := by
  refine room_of_single (form_eq_single hform).1 fun hrepeated => ?_
  unfold FieldPlan.form at hform
  rw [if_pos hrepeated] at hform
  split at hform
  · cases hform
  · split at hform <;> cases hform

theorem FieldPlan.room_of_form_each (hform : field.form = .each) :
    field.room = .list field.type :=
  room_of_list (form_eq_each hform).1 (form_eq_each hform).2.1

theorem FieldPlan.Coherent.room_of_form_packed (hfield : field.Coherent set)
    (hform : field.form = .packed) : field.room = .list field.type := by
  obtain ⟨hmap, hpacked, _⟩ := form_eq_packed hform
  exact room_of_list hmap (hfield.packed hpacked).1

theorem FieldPlan.Coherent.room_of_form_entries (hfield : field.Coherent set) {name : String}
    (hform : field.form = .mapEntries name) : field.room = .map (.message name) := by
  rw [room_of_map (form_eq_mapEntries hform).1, (hfield.entry_of_form hform).1]

/-! ## Decoded messages -/

theorem DecodedElement.fits {type : ValueType} {value : Value}
    (h : DecodedElement set (Record.Fits set) type value) : value.Fits set (.single type) := by
  cases h with
  | scalar type x => exact .scalar type x
  | enum _ _ => exact .enum _ _
  | message hplan hfields => exact .message hplan hfields

theorem DecodedEntry.fits {name : String} {plan : MessagePlan} {key : ScalarType}
    {type : ValueType} {entry : MapKey × Value} (hplan : set.message? name = some plan)
    (hentry : plan.IsEntry key type) (h : DecodedEntry set (Record.Fits set) name entry) :
    Value.Fits set (.single (.scalar key)) (.ofMapKey entry.1) ∧
      Value.Fits set (.single type) entry.2 := by
  obtain ⟨_, pair, hplan', ⟨-, -, hfields⟩, hkey, hvalue⟩ := h
  obtain rfl := Option.some.inj (hplan.symm.trans hplan')
  exact ⟨hfields _ (Sorted.mem_of_find? hkey) _ hentry.field?_key,
    hfields _ (Sorted.mem_of_find? hvalue) _ hentry.field?_value⟩

theorem DecodedField.fits (hfield : field.Coherent set) {value : Value}
    (h : DecodedField set (Record.Fits set) field (some value)) : value.Fits set field.room := by
  cases h with
  | single hmap hsingle hvalue =>
      rw [FieldPlan.room_of_single hmap hsingle]
      exact hvalue.fits
  | list hmap hrepeated _ helements =>
      rw [FieldPlan.room_of_list hmap hrepeated]
      exact .list fun item hitem => (helements item hitem).fits
  | map hmap _ hincreasing helements =>
      obtain ⟨_, name, plan, key, type, htype, hplan, hentry⟩ := hfield.entry hmap
      rw [htype] at helements
      rw [FieldPlan.room_of_map hmap, htype]
      exact .map hplan hentry hincreasing
        (fun entry hmem => ((helements entry hmem).fits hplan hentry).1)
        (fun entry hmem => ((helements entry hmem).fits hplan hentry).2)

theorem DecodedMessage.fits {plan : MessagePlan} {record : Record} (hplan : plan.Named set)
    (h : DecodedMessage set (Record.Fits set) plan record) : record.Fits set plan := by
  refine .intro h.increasing ?_ ?_
  · intro pair hpair
    obtain ⟨field, hfound, _⟩ := h.field_of_mem hpair
    rw [hfound]
    rfl
  · intro pair hpair field hfound
    obtain ⟨other, hother, hdecoded⟩ := h.field_of_mem hpair
    obtain rfl := Option.some.inj (hother.symm.trans hfound)
    exact hdecoded.fits (hplan.fields other (MessagePlan.mem_of_field? hfound).1)

/-- The reader of messages answers messages that fit. -/
theorem yields_fits (hset : set.Named) (levels : Nat) {plan : MessagePlan}
    (hplan : plan.Named set) :
    Read.Yields (readMessageWithin set levels plan) (Record.Fits set plan) := by
  induction levels generalizing plan with
  | zero =>
      have hnested : ∀ name plan, set.message? name = some plan →
          Read.Yields (nestedReader set 0 plan) (Record.Fits set plan) := fun _ _ _ =>
        Read.yields_throw _
      rw [readMessageWithin_eq]
      exact (yields_readMessageWith hnested hplan.toLaidOut hplan.names).mono
        fun record hrecord => hrecord.fits hplan
  | succ levels ih =>
      have hnested : ∀ name plan, set.message? name = some plan →
          Read.Yields (nestedReader set (levels + 1) plan) (Record.Fits set plan) :=
        fun _ _ hplan => ih (hset.of_message? hplan)
      rw [readMessageWithin_eq]
      exact (yields_readMessageWith hnested hplan.toLaidOut hplan.names).mono
        fun record hrecord => hrecord.fits hplan

/-- Decoded messages fit. -/
theorem PlanSet.Named.fits_of_decode (hset : set.Named) {plan : MessagePlan}
    (hplan : plan.Named set) {bytes : Bytes} {record : Record}
    (hdecode : set.decode plan bytes = .ok record) : record.Fits set plan := by
  obtain ⟨after, hrun⟩ := PlanSet.exists_run_of_decode hdecode
  exact yields_fits hset nestingLimit hplan _ _ _ _ hrun

/-! ## Messages that can be encoded -/

theorem ElementTree.fits {type : ValueType} {value : Value} {tree : WireValue}
    (h : ElementTree set type value tree) (hnested : ∀ name fields plan tree,
      type = .message name → value = .message fields → set.message? name = some plan →
        messageTree set plan fields = .ok tree → Record.Fits set plan fields) :
    value.Fits set (.single type) := by
  cases h with
  | scalar type x => exact .scalar type x
  | enum _ _ => exact .enum _ _
  | message hplan htree => exact .message hplan (hnested _ _ _ _ rfl rfl hplan htree)

/-- What can be encoded for a field is of the kind that the field has room for. -/
theorem FieldTree.fits (hfield : field.Coherent set) {value : Value} {trees : List WireValue}
    (h : FieldTree set field (some value) trees)
    (hmaps : ∀ entries, value = .map entries → Sorted.Increasing entries)
    (hnested : ∀ name fields plan tree, .message fields ∈ value.elements →
      set.message? name = some plan → messageTree set plan fields = .ok tree →
        Record.Fits set plan fields) : value.Fits set field.room := by
  have hlist : ∀ {items : List Value} {trees : List WireValue}, value = .list items →
      List.Forall₂ (ElementTree set field.type) items trees →
        Value.Fits set (.list field.type) value := by
    rintro items trees rfl htrees
    refine .list fun item hitem => ?_
    obtain ⟨tree, _, htree⟩ := exists_mem_of_forall₂ htrees.flip hitem
    exact htree.fits fun name fields plan tree _ heq hplan htree =>
      hnested name fields plan tree (heq ▸ hitem) hplan htree
  cases h with
  | single hform htree =>
      rw [FieldPlan.room_of_form_single hform]
      refine htree.fits fun name fields plan tree _ heq hplan htree =>
        hnested name fields plan tree ?_ hplan htree
      rw [heq]
      exact List.mem_cons_self
  | each hform htrees =>
      rw [FieldPlan.room_of_form_each hform]
      exact hlist rfl htrees
  | noItems hform =>
      rw [hfield.room_of_form_packed hform]
      exact .list (by simp)
  | packed hform _ htrees =>
      rw [hfield.room_of_form_packed hform]
      exact hlist rfl htrees
  | @entries name plan key type entries trees hform hplan hentry htrees =>
      rw [hfield.room_of_form_entries hform]
      have hentries : ∀ entry ∈ entries, ∃ tree, EntryTree set key type entry tree := by
        intro entry hmem
        obtain ⟨tree, _, htree⟩ := exists_mem_of_forall₂ htrees.flip hmem
        exact ⟨tree, htree⟩
      refine .map hplan hentry (hmaps entries rfl) ?_ ?_
      · intro entry hmem
        obtain ⟨_, ⟨hkey, _⟩⟩ := hentries entry hmem
        exact hkey.fits fun _ _ _ _ htype => by cases htype
      · intro entry hmem
        obtain ⟨_, ⟨_, hvalue⟩⟩ := hentries entry hmem
        exact hvalue.fits fun name fields plan tree _ heq hplan htree =>
          hnested name fields plan tree (List.mem_map.mpr ⟨_, hmem, heq⟩) hplan htree

/-- Messages that have a wire form fit. -/
theorem fits_of_messageTree (hset : set.Named) {record : Record} (hordered : record.Ordered)
    {plan : MessagePlan} (hplan : plan.Named set) {tree : List (Key × WireValue)}
    (htree : messageTree set plan record = .ok tree) : record.Fits set plan := by
  induction record using Record.nesting_induction generalizing plan tree with
  | step record ih =>
      obtain ⟨hincreasing, hmaps, hinner⟩ := hordered
      obtain ⟨hknown, own, hown, _⟩ := (messageTree_eq_ok hplan).mp htree
      refine .intro hincreasing ?_ ?_
      · exact fun pair hpair =>
          Record.field?_isSome_of_unknownNames hknown (Sorted.find?_of_mem hincreasing hpair)
      · intro pair hpair field hfound
        obtain ⟨hfield, hname⟩ := MessagePlan.mem_of_field? hfound
        have hvalue : Record.value? record field.name = some pair.2 :=
          hname ▸ Sorted.find?_of_mem hincreasing hpair
        have hfieldTree := hown field hfield
        rw [hvalue] at hfieldTree
        refine hfieldTree.fits (hplan.fields field hfield) (hmaps pair hpair) ?_
        exact fun name fields inner tree hmem hinnerPlan htree => ih pair hpair fields hmem
          (hinner pair hpair fields hmem) (hset.of_message? hinnerPlan) htree

/-- Messages that can be encoded fit. -/
theorem PlanSet.Named.fits_of_encode (hset : set.Named) {plan : MessagePlan}
    (hplan : plan.Named set) {record : Record} (hordered : record.Ordered) {bytes : Bytes}
    (hencode : set.encode plan record = .ok bytes) : record.Fits set plan := by
  rw [PlanSet.encode_eq] at hencode
  obtain ⟨tree, htree, _⟩ := Except.map_eq_ok.mp hencode
  exact fits_of_messageTree hset hordered hplan htree

end WireCodec
