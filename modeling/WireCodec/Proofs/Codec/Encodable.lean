import WireCodec.Proofs.Codec.Fits
import WireCodec.Proofs.Plan.Closed

/-! # Messages that can be encoded

A message can be encoded exactly if every field that it has is one of its plan
and holds what all fields of that name have room for, and every enum symbol in
it has a number. Fields of a plan may share a name here.
-/

namespace WireCodec

mutual

/-- A value is of the kind that there is room for, and all symbols in it have numbers. -/
inductive Value.Encodable (set : PlanSet) : FieldRoom → Value → Prop
  | scalar (type : ScalarType) (x : type.Carrier) :
      Value.Encodable set (.single (.scalar type)) (.ofScalar type x)
  | enum {name symbol : String} {table : EnumTable} {number : Int32}
      (htable : set.enum? name = some table) (hnumber : table.number? symbol = some number) :
      Value.Encodable set (.single (.enum name)) (.enum symbol)
  | message {name : String} {plan : MessagePlan} {record : Record}
      (hplan : set.message? name = some plan) (hrecord : Record.Encodable set plan record) :
      Value.Encodable set (.single (.message name)) (.message record)
  | list {type : ValueType} {items : List Value}
      (hitems : ∀ item ∈ items, Value.Encodable set (.single type) item) :
      Value.Encodable set (.list type) (.list items)
  | map {name : String} {plan : MessagePlan} {key : ScalarType} {type : ValueType}
      {entries : List (MapKey × Value)} (hplan : set.message? name = some plan)
      (hentry : plan.IsEntry key type)
      (hkeys : ∀ entry ∈ entries,
        Value.Encodable set (.single (.scalar key)) (.ofMapKey entry.1))
      (hvalues : ∀ entry ∈ entries, Value.Encodable set (.single type) entry.2) :
      Value.Encodable set (.map (.message name)) (.map entries)

/-- All names in a message are those of fields, and each field that is present has a value
that it has room for. -/
inductive Record.Encodable (set : PlanSet) : MessagePlan → Record → Prop
  | intro {plan : MessagePlan} {record : Record}
      (hknown : ∀ pair ∈ record, ∃ field ∈ plan.fields, field.name = pair.1)
      (hfields : ∀ field ∈ plan.fields, ∀ value, Record.value? record field.name = some value →
        Value.Encodable set field.room value) : Record.Encodable set plan record

end

variable {set : PlanSet}

theorem Record.unknownNames_eq_nil {record : Record} {plan : MessagePlan} :
    Record.unknownNames record plan = [] ↔
      ∀ pair ∈ record, ∃ field ∈ plan.fields, field.name = pair.1 := by
  simp [unknownNames, List.filter_eq_nil_iff, MessagePlan.field?]

/-- A message has a wire form by a plan exactly if it can be encoded by it. -/
def HasTree (set : PlanSet) (plan : MessagePlan) (record : Record) : Prop :=
  ∃ tree, messageTree set plan record = .ok tree

/-- What can be encoded among nested messages is what has a wire form. -/
def TreesOf (set : PlanSet) (record : Record) : Prop :=
  ∀ plan : MessagePlan, plan.Closed set →
    (HasTree set plan record ↔ record.Encodable set plan)

section Nested

variable (hset : set.Closed)
include hset

theorem exists_elementTree {type : ValueType} {value : Value}
    (nested : ∀ record, value = .message record → TreesOf set record) :
    (∃ tree, ElementTree set type value tree) ↔ value.Encodable set (.single type) := by
  constructor
  · rintro ⟨tree, htree⟩
    cases htree with
    | scalar type x => exact .scalar type x
    | enum htable hnumber => exact .enum htable hnumber
    | message hplan htree =>
        exact .message hplan ((nested _ rfl _ (hset.of_message? hplan)).mp ⟨_, htree⟩)
  · intro h
    cases h with
    | scalar type x => exact ⟨_, .scalar type x⟩
    | enum htable hnumber => exact ⟨_, .enum htable hnumber⟩
    | message hplan hrecord =>
        obtain ⟨tree, htree⟩ := (nested _ rfl _ (hset.of_message? hplan)).mpr hrecord
        exact ⟨_, .message hplan htree⟩

theorem exists_elementTrees {type : ValueType} {items : List Value}
    (nested : ∀ record, .message record ∈ items → TreesOf set record) :
    (∃ trees, List.Forall₂ (ElementTree set type) items trees) ↔
      ∀ item ∈ items, item.Encodable set (.single type) := by
  have hitem : ∀ item ∈ items, ((∃ tree, ElementTree set type item tree) ↔
      item.Encodable set (.single type)) := fun item hitem =>
    exists_elementTree hset fun record heq => nested record (heq ▸ hitem)
  constructor
  · rintro ⟨trees, htrees⟩ item hmem
    obtain ⟨tree, _, htree⟩ := exists_mem_of_forall₂ htrees.flip hmem
    exact (hitem item hmem).mp ⟨tree, htree⟩
  · intro h
    obtain ⟨trees, htrees, -⟩ := exists_forall₂_of_mem (p := fun _ => True)
      fun item hmem => ((hitem item hmem).mpr (h item hmem)).imp fun _ htree => ⟨htree, trivial⟩
    exact ⟨trees, htrees⟩

theorem exists_entryTrees {key : ScalarType} {type : ValueType} {entries : List (MapKey × Value)}
    (nested : ∀ record, .message record ∈ entries.map (·.2) → TreesOf set record) :
    (∃ trees, List.Forall₂ (EntryTree set key type) entries trees) ↔
      (∀ entry ∈ entries, Value.Encodable set (.single (.scalar key)) (.ofMapKey entry.1)) ∧
        ∀ entry ∈ entries, entry.2.Encodable set (.single type) := by
  have hkey : ∀ key mapKey, (∃ tree, ElementTree set (.scalar key) (.ofMapKey mapKey) tree) ↔
      Value.Encodable set (.single (.scalar key)) (.ofMapKey mapKey) := by
    refine fun key mapKey => exists_elementTree hset fun record heq => ?_
    cases mapKey <;> cases heq
  have hvalue : ∀ entry ∈ entries, ((∃ tree, ElementTree set type entry.2 tree) ↔
      entry.2.Encodable set (.single type)) := fun entry hmem =>
    exists_elementTree hset fun record heq => nested record (heq ▸ List.mem_map_of_mem hmem)
  constructor
  · rintro ⟨trees, htrees⟩
    have hentries : ∀ entry ∈ entries, ∃ tree, EntryTree set key type entry tree := by
      intro entry hmem
      obtain ⟨tree, _, htree⟩ := exists_mem_of_forall₂ htrees.flip hmem
      exact ⟨tree, htree⟩
    constructor
    · intro entry hmem
      obtain ⟨_, ⟨hfirst, -⟩⟩ := hentries entry hmem
      exact (hkey key _).mp ⟨_, hfirst⟩
    · intro entry hmem
      obtain ⟨_, ⟨-, hsecond⟩⟩ := hentries entry hmem
      exact (hvalue _ hmem).mp ⟨_, hsecond⟩
  · rintro ⟨hkeys, hvalues⟩
    have hentries : ∀ entry ∈ entries, ∃ tree, EntryTree set key type entry tree ∧ True := by
      intro entry hmem
      obtain ⟨first, hfirst⟩ := (hkey key entry.1).mpr (hkeys entry hmem)
      obtain ⟨second, hsecond⟩ := (hvalue entry hmem).mpr (hvalues entry hmem)
      exact ⟨_, .intro hfirst hsecond, trivial⟩
    obtain ⟨trees, htrees, -⟩ := exists_forall₂_of_mem hentries
    exact ⟨trees, htrees⟩

/-- There is something on the wire for the value of a field exactly if the field has room
for it. -/
theorem exists_fieldTree {field : FieldPlan} (hfield : field.Coherent set) {value : Value}
    (nested : ∀ record, .message record ∈ value.elements → TreesOf set record) :
    (∃ trees, FieldTree set field (some value) trees) ↔ value.Encodable set field.room := by
  constructor
  · rintro ⟨trees, htrees⟩
    cases htrees with
    | single hform htree =>
        rw [FieldPlan.room_of_form_single hform]
        refine (exists_elementTree hset fun record heq => nested record ?_).mp ⟨_, htree⟩
        rw [heq]
        exact List.mem_cons_self
    | each hform htrees =>
        rw [FieldPlan.room_of_form_each hform]
        exact .list ((exists_elementTrees hset nested).mp ⟨_, htrees⟩)
    | noItems hform =>
        rw [hfield.room_of_form_packed hform]
        exact .list (by simp)
    | packed hform _ htrees =>
        rw [hfield.room_of_form_packed hform]
        exact .list ((exists_elementTrees hset nested).mp ⟨_, htrees⟩)
    | entries hform hplan hentry htrees =>
        obtain ⟨hkeys, hvalues⟩ := (exists_entryTrees hset nested).mp ⟨_, htrees⟩
        rw [hfield.room_of_form_entries hform]
        exact .map hplan hentry hkeys hvalues
  · intro h
    cases hform : field.form with
    | single =>
        rw [FieldPlan.room_of_form_single hform] at h
        have hnested : ∀ record, value = .message record → TreesOf set record := by
          rintro record rfl
          exact nested record List.mem_cons_self
        obtain ⟨tree, htree⟩ := (exists_elementTree hset hnested).mpr h
        exact ⟨_, .single hform htree⟩
    | each =>
        rw [FieldPlan.room_of_form_each hform] at h
        cases h with
        | list hitems =>
            obtain ⟨trees, htrees⟩ := (exists_elementTrees hset nested).mpr hitems
            exact ⟨_, .each hform htrees⟩
    | packed =>
        rw [hfield.room_of_form_packed hform] at h
        cases h with
        | @list _ items hitems =>
            obtain ⟨trees, htrees⟩ := (exists_elementTrees hset nested).mpr hitems
            by_cases hempty : items = []
            · subst hempty
              exact ⟨_, .noItems hform⟩
            · exact ⟨_, .packed hform hempty htrees⟩
    | mapEntries name =>
        rw [hfield.room_of_form_entries hform] at h
        cases h with
        | map hplan hentry hkeys hvalues =>
            obtain ⟨trees, htrees⟩ := (exists_entryTrees hset nested).mpr ⟨hkeys, hvalues⟩
            exact ⟨_, .entries hform hplan hentry htrees⟩

omit hset in
/-- A message has a wire form exactly if each of its fields has something on the wire. -/
theorem hasTree_iff {plan : MessagePlan} (hplan : plan.Closed set) {record : Record} :
    HasTree set plan record ↔ Record.unknownNames record plan = [] ∧
      ∀ field ∈ plan.fields, ∃ trees,
        FieldTree set field (Record.value? record field.name) trees := by
  unfold HasTree
  simp only [messageTree_eq_ok_of_laidOut hplan.toLaidOut hplan.fields]
  constructor
  · rintro ⟨tree, hknown, own, hown, -⟩
    exact ⟨hknown, fun field hfield => ⟨own field, hown field hfield⟩⟩
  · rintro ⟨hknown, hall⟩
    have htrees : ∀ field, ∃ trees, field ∈ plan.fields →
        FieldTree set field (Record.value? record field.name) trees := by
      intro field
      by_cases hfield : field ∈ plan.fields
      · exact (hall field hfield).imp fun _ htrees _ => htrees
      · exact ⟨[], fun h => absurd h hfield⟩
    choose own hown using htrees
    exact ⟨_, hknown, own, hown, rfl⟩

/-- Messages have a wire form exactly if they can be encoded. -/
theorem treesOf (record : Record) : TreesOf set record := by
  induction record using Record.nesting_induction with
  | step record ih =>
      intro plan hplan
      have hvalue : ∀ field ∈ plan.fields, (∃ trees,
          FieldTree set field (Record.value? record field.name) trees) ↔
            ∀ value, Record.value? record field.name = some value →
              value.Encodable set field.room := by
        intro field hfield
        cases hfound : Record.value? record field.name with
        | none => exact ⟨fun _ _ h => (by cases h), fun _ => ⟨[], .absent⟩⟩
        | some value =>
            have hnested := ih _ (Sorted.mem_of_find? hfound)
            rw [exists_fieldTree hset (hplan.fields field hfield) hnested]
            simp
      rw [hasTree_iff hplan, Record.unknownNames_eq_nil]
      constructor
      · rintro ⟨hknown, hall⟩
        exact .intro hknown fun field hfield => (hvalue field hfield).mp (hall field hfield)
      · rintro ⟨hknown, hall⟩
        exact ⟨hknown, fun field hfield => (hvalue field hfield).mpr (hall field hfield)⟩

end Nested

end WireCodec
