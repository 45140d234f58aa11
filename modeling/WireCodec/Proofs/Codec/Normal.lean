import WireCodec.Codec.Encode
import WireCodec.Codec.ToJson
import WireCodec.Proofs.Plan.Coherent
import WireCodec.Proofs.Value.Nesting

/-! # Normal forms of messages

An encoding does not tell an empty list or map from a missing one, nor one
symbol of an enum from another with the same number. A normal form has no
empty lists and maps in its fields, and what stands for a symbol depends on
its number alone.
-/

namespace WireCodec

/-- Whether a value is a list or a map of nothing. -/
def Value.isEmpty : Value → Bool
  | list [] | map [] => true
  | _ => false

namespace EnumTable

/-- The symbol that stands for the number of a symbol. -/
def canonicalSymbol (table : EnumTable) (symbol : String) : String :=
  ((table.number? symbol).bind table.symbol?).getD symbol

/-- The value of the number of a symbol. -/
def numberValue (table : EnumTable) (symbol : String) : Value :=
  match table.number? symbol with
  | some number => .int32 number
  | none => .enum symbol

theorem exists_symbol? {table : EnumTable} {symbol : String} {number : Int32}
    (h : table.number? symbol = some number) : ∃ canonical, table.symbol? number = some canonical := by
  have hfound : ∀ symbol, table.symbolNumber? symbol = some number →
      ∃ canonical, table.symbol? number = some canonical := by
    intro symbol hsymbol
    obtain ⟨value, hvalue, rfl⟩ := Option.map_eq_some_iff.mp hsymbol
    have hmem : value ∈ table.values := List.mem_reverse.mp (List.mem_of_find?_eq_some hvalue)
    have hsome : (table.values.find? (·.2 == value.2)).isSome :=
      List.find?_isSome.mpr ⟨value, hmem, beq_self_eq_true _⟩
    obtain ⟨other, hother⟩ := Option.isSome_iff_exists.mp hsome
    exact ⟨other.1, Option.map_eq_some_iff.mpr ⟨other, hother, rfl⟩⟩
  unfold number? at h
  cases hdirect : table.symbolNumber? symbol with
  | none =>
      rw [hdirect] at h
      exact hfound _ h
  | some found =>
      rw [hdirect] at h
      cases h
      exact hfound _ hdirect

end EnumTable

variable (set : PlanSet) (rename : EnumTable → String → Value)

/-- What stands for a symbol of an enum type. -/
def renameSymbol (type : Option ValueType) (symbol : String) : Value :=
  match type with
  | some (.enum name) =>
    match set.enum? name with
    | some table => rename table symbol
    | none => .enum symbol
  | _ => .enum symbol

mutual

/-- The normal form of a value. The items of a list and the values of a map
are of the given type. -/
def Value.normal (type : Option ValueType) : Value → Value
  | .bool b => .bool b
  | .int32 n => .int32 n
  | .int64 n => .int64 n
  | .uint32 n => .uint32 n
  | .uint64 n => .uint64 n
  | .float x => .float x
  | .double x => .double x
  | .string s => .string s
  | .bytes b => .bytes b
  | .enum symbol => renameSymbol set rename type symbol
  | .message fields =>
    match set.nested? type with
    | some plan => .message (normalFields plan fields)
    | none => .message fields
  | .list items => .list (normalItems type items)
  | .map entries => .map (normalEntries type entries)

/-- The normal forms of the fields of a message, but for empty lists and maps. -/
def normalFields (plan : MessagePlan) : List (String × Value) → List (String × Value)
  | [] => []
  | (name, value) :: rest =>
    if value.isEmpty then normalFields plan rest
    else
      (name, value.normal ((plan.field? name).bind fun field => field.elementType? set)) ::
        normalFields plan rest

/-- The normal forms of the items of a list. -/
def normalItems (type : Option ValueType) : List Value → List Value
  | [] => []
  | item :: rest => item.normal type :: normalItems type rest

/-- The normal forms of the entries of a map. -/
def normalEntries (type : Option ValueType) : List (MapKey × Value) → List (MapKey × Value)
  | [] => []
  | (key, value) :: rest => (key, value.normal type) :: normalEntries type rest

end

/-- The message that is read back from an encoding: without empty lists and
maps, and with the symbol that stands for each enum number. -/
def PlanSet.canonical (plan : MessagePlan) (record : Record) : Record :=
  normalFields set (fun table symbol => .enum (table.canonicalSymbol symbol)) plan record

/-- What an encoding tells about a message: without empty lists and maps, and
with numbers for enum symbols. -/
def PlanSet.numbered (plan : MessagePlan) (record : Record) : Record :=
  normalFields set EnumTable.numberValue plan record

variable {set rename}

theorem normalItems_eq_map (type : Option ValueType) (items : List Value) :
    normalItems set rename type items = items.map (Value.normal set rename type) := by
  induction items with
  | nil => rfl
  | cons item rest ih => simp only [normalItems, ih, List.map_cons]

theorem normalEntries_eq_map (type : Option ValueType) (entries : List (MapKey × Value)) :
    normalEntries set rename type entries =
      entries.map fun entry => (entry.1, entry.2.normal set rename type) := by
  induction entries with
  | nil => rfl
  | cons entry rest ih =>
      obtain ⟨key, value⟩ := entry
      simp only [normalEntries, ih, List.map_cons]

theorem Value.normal_ofScalar (type : Option ValueType) (scalar : ScalarType)
    (x : scalar.Carrier) :
    (Value.ofScalar scalar x).normal set rename type = .ofScalar scalar x := by
  cases scalar <;> simp only [Value.ofScalar, Value.normal]

theorem Value.normal_ofMapKey (type : Option ValueType) (key : MapKey) :
    (Value.ofMapKey key).normal set rename type = .ofMapKey key := by
  cases key <;> simp only [Value.ofMapKey, Value.normal]

/-- The normal form of what a message has for a field. -/
def FieldPlan.normal (set : PlanSet) (rename : EnumTable → String → Value) (field : FieldPlan)
    (found : Option Value) : Option Value :=
  found.bind fun value =>
    if value.isEmpty then none else some (value.normal set rename (field.elementType? set))

section Field

variable {field : FieldPlan} {found : Option Value}

/-- The normal form of a list field, for a missing list as for an empty one. -/
theorem FieldPlan.normal_list {items : List Value}
    (hfound : found = none ∧ items = [] ∨ found = some (.list items)) :
    field.normal set rename found = if items = [] then none
      else some (.list (items.map (Value.normal set rename (field.elementType? set)))) := by
  rcases hfound with ⟨rfl, rfl⟩ | rfl
  · rfl
  · cases items with
    | nil => rfl
    | cons item rest => simp [FieldPlan.normal, Value.isEmpty, Value.normal, normalItems_eq_map]

theorem FieldPlan.normal_map {entries : List (MapKey × Value)}
    (hfound : found = none ∧ entries = [] ∨ found = some (.map entries)) :
    field.normal set rename found = if entries = [] then none
      else some (.map (entries.map fun entry =>
        (entry.1, entry.2.normal set rename (field.elementType? set)))) := by
  rcases hfound with ⟨rfl, rfl⟩ | rfl
  · rfl
  · cases entries with
    | nil => rfl
    | cons entry rest =>
        simp [FieldPlan.normal, Value.isEmpty, Value.normal, normalEntries_eq_map]

theorem FieldPlan.normal_single {value : Value}
    (hempty : value.isEmpty = false) : field.normal set rename (some value) =
      some (value.normal set rename (field.elementType? set)) := by
  simp [FieldPlan.normal, hempty]

end Field

theorem Sorted.find?_eq_none_of_lt {α κ : Type} [Ord κ] [Std.TransOrd κ] [BEq κ] [LawfulBEq κ]
    {key : κ} {pairs : List (κ × α)} (h : ∀ pair ∈ pairs, compare key pair.1 = .lt) :
    find? key pairs = none := by
  cases hfound : find? key pairs with
  | none => rfl
  | some value => exact absurd rfl (ne_of_compare_eq_lt (h _ (mem_of_find? hfound)))

theorem mem_normalFields {plan : MessagePlan} {record : Record} {pair : String × Value}
    (h : pair ∈ normalFields set rename plan record) : ∃ value, (pair.1, value) ∈ record := by
  induction record with
  | nil => cases h
  | cons head rest ih =>
      obtain ⟨name, value⟩ := head
      unfold normalFields at h
      split at h
      · obtain ⟨other, hother⟩ := ih h
        exact ⟨other, List.mem_cons_of_mem _ hother⟩
      · rcases List.mem_cons.mp h with rfl | htail
        · exact ⟨value, List.mem_cons_self⟩
        · obtain ⟨other, hother⟩ := ih htail
          exact ⟨other, List.mem_cons_of_mem _ hother⟩

theorem increasing_normalFields {plan : MessagePlan} {record : Record}
    (h : Sorted.Increasing record) : Sorted.Increasing (normalFields set rename plan record) := by
  induction record with
  | nil => exact Sorted.increasing_nil
  | cons head rest ih =>
      obtain ⟨name, value⟩ := head
      obtain ⟨hhead, hrest⟩ := Sorted.increasing_cons.mp h
      unfold normalFields
      split
      · exact ih hrest
      · refine Sorted.increasing_cons.mpr ⟨?_, ih hrest⟩
        intro after hafter
        obtain ⟨other, hother⟩ := mem_normalFields hafter
        exact hhead (after.1, other) hother

theorem value?_normalFields {plan : MessagePlan} {record : Record} (h : Sorted.Increasing record)
    (name : String) : Record.value? (normalFields set rename plan record) name =
      (Record.value? record name).bind fun value =>
        if value.isEmpty then none
        else some (value.normal set rename
          ((plan.field? name).bind fun field => field.elementType? set)) := by
  unfold Record.value?
  induction record with
  | nil => rfl
  | cons head rest ih =>
      obtain ⟨first, value⟩ := head
      obtain ⟨hhead, hrest⟩ := Sorted.increasing_cons.mp h
      unfold normalFields
      by_cases hname : name = first
      · subst hname
        have hnone : Sorted.find? name rest = none := Sorted.find?_eq_none_of_lt hhead
        split
        next hempty =>
          rw [ih hrest, hnone]
          simp [Sorted.find?, hempty]
        next hempty => simp [Sorted.find?, hempty]
      · split
        · rw [ih hrest]
          simp [Sorted.find?, hname]
        · simp only [Sorted.find?, beq_iff_eq, hname, if_false]
          exact ih hrest

/-- What the normal form of a message has for a field of its plan. -/
theorem value?_normalFields_of_mem {plan : MessagePlan} (hplan : plan.Coherent set)
    {record : Record} (h : Sorted.Increasing record) {field : FieldPlan}
    (hfield : field ∈ plan.fields) :
    Record.value? (normalFields set rename plan record) field.name =
      field.normal set rename (Record.value? record field.name) := by
  rw [value?_normalFields h, hplan.field?_of_mem hfield]
  rfl

theorem Record.field?_isSome_of_unknownNames {plan : MessagePlan} {record : Record}
    (h : Record.unknownNames record plan = []) {name : String} {value : Value}
    (hfound : Record.value? record name = some value) : (plan.field? name).isSome := by
  have hmem : name ∈ record.map (·.1) := List.mem_map.mpr ⟨_, Sorted.mem_of_find? hfound, rfl⟩
  have hknown := List.filter_eq_nil_iff.mp h name hmem
  simpa [Option.isNone_iff_eq_none, Option.ne_none_iff_isSome] using hknown

theorem Record.value?_eq_none_of_unknownNames {plan : MessagePlan} {record : Record}
    (h : Record.unknownNames record plan = []) {name : String}
    (hname : ∀ field ∈ plan.fields, field.name ≠ name) : Record.value? record name = none := by
  cases hfound : Record.value? record name with
  | none => rfl
  | some value =>
      obtain ⟨field, hfield⟩ := Option.isSome_iff_exists.mp (field?_isSome_of_unknownNames h hfound)
      obtain ⟨hmem, heq⟩ := MessagePlan.mem_of_field? hfield
      exact absurd heq (hname field hmem)

/-- A message with fields of the plan only is the normal form of another when
each of its fields is. -/
theorem eq_normalFields {plan : MessagePlan} (hplan : plan.Coherent set) {record result : Record}
    (hrecord : Sorted.Increasing record) (hknown : Record.unknownNames record plan = [])
    (hresult : Sorted.Increasing result)
    (hother : ∀ name, (∀ field ∈ plan.fields, field.name ≠ name) →
      Record.value? result name = none)
    (hfields : ∀ field ∈ plan.fields, Record.value? result field.name =
      field.normal set rename (Record.value? record field.name)) :
    result = normalFields set rename plan record := by
  refine Sorted.ext hresult (increasing_normalFields hrecord) ?_
  intro name
  change Record.value? _ name = Record.value? _ name
  by_cases hname : ∃ field ∈ plan.fields, field.name = name
  · obtain ⟨field, hfield, rfl⟩ := hname
    rw [value?_normalFields_of_mem hplan hrecord hfield, hfields field hfield]
  · have hnone : ∀ field ∈ plan.fields, field.name ≠ name := fun field hfield heq =>
      hname ⟨field, hfield, heq⟩
    rw [hother name hnone, value?_normalFields hrecord,
      Record.value?_eq_none_of_unknownNames hknown hnone]
    rfl

/-- Messages have the same normal form when their fields do. -/
theorem normalFields_eq_iff {plan : MessagePlan} (hplan : plan.Coherent set)
    {record other : Record} (hrecord : Sorted.Increasing record)
    (hother : Sorted.Increasing other) (hknown : Record.unknownNames record plan = [])
    (hknown' : Record.unknownNames other plan = []) :
    normalFields set rename plan record = normalFields set rename plan other ↔
      ∀ field ∈ plan.fields, field.normal set rename (Record.value? record field.name) =
        field.normal set rename (Record.value? other field.name) := by
  constructor
  · intro h field hfield
    rw [← value?_normalFields_of_mem hplan hrecord hfield, h,
      value?_normalFields_of_mem hplan hother hfield]
  · intro h
    refine eq_normalFields hplan hother hknown' (increasing_normalFields hrecord) ?_ ?_
    · intro name hname
      rw [value?_normalFields hrecord, Record.value?_eq_none_of_unknownNames hknown hname]
      rfl
    · intro field hfield
      rw [value?_normalFields_of_mem hplan hrecord hfield, h field hfield]

end WireCodec
