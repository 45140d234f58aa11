import WireCodec.Json.Basic
import WireCodec.Value.Basic

/-! # Values with other numbers

Values and JSON values in which the floating-point numbers, and nothing else,
are replaced.
-/

namespace WireCodec

/-- A number with another double in place of a double. -/
def JsonNumber.mapDouble (f : Binary64 → Binary64) : JsonNumber → JsonNumber
  | .double x => .double (f x)
  | n => n

namespace Json

variable (f : Binary64 → Binary64)

mutual

/-- A JSON value with other doubles. -/
def mapDoubles : Json → Json
  | .null => .null
  | .bool b => .bool b
  | .number n => .number (n.mapDouble f)
  | .string s => .string s
  | .array items => .array (mapItems items)
  | .object members => .object (mapMembers members)

/-- The items of an array with other doubles. -/
def mapItems : List Json → List Json
  | [] => []
  | item :: rest => item.mapDoubles :: mapItems rest

/-- The members of an object with other doubles. -/
def mapMembers : List (String × Json) → List (String × Json)
  | [] => []
  | (name, value) :: rest => (name, value.mapDoubles) :: mapMembers rest

end

theorem mapItems_eq_map (items : List Json) : mapItems f items = items.map (mapDoubles f) := by
  induction items with
  | nil => rfl
  | cons item rest ih => simp only [mapItems, ih, List.map_cons]

theorem mapMembers_eq_map (members : List (String × Json)) :
    mapMembers f members = members.map fun member => (member.1, member.2.mapDoubles f) := by
  induction members with
  | nil => rfl
  | cons member rest ih =>
      obtain ⟨name, value⟩ := member
      simp only [mapMembers, ih, List.map_cons]

/-! With the same doubles a value is the same. -/

mutual

theorem mapDoubles_id (json : Json) : json.mapDoubles id = json := by
  cases json with
  | null | bool b | string s => rfl
  | number n => cases n <;> rfl
  | array items => rw [mapDoubles, mapItems_id items]
  | object members => rw [mapDoubles, mapMembers_id members]

theorem mapItems_id (items : List Json) : mapItems id items = items := by
  cases items with
  | nil => rfl
  | cons item rest => rw [mapItems, mapDoubles_id item, mapItems_id rest]

theorem mapMembers_id (members : List (String × Json)) : mapMembers id members = members := by
  match members with
  | [] => rfl
  | (name, value) :: rest => rw [mapMembers, mapDoubles_id value, mapMembers_id rest]

end

end Json

variable (single : Binary32 → Binary32) (double : Binary64 → Binary64)

mutual

/-- A value with other floating-point numbers. -/
def Value.mapFloats : Value → Value
  | .bool b => .bool b
  | .int32 n => .int32 n
  | .int64 n => .int64 n
  | .uint32 n => .uint32 n
  | .uint64 n => .uint64 n
  | .float x => .float (single x)
  | .double x => .double (double x)
  | .string s => .string s
  | .bytes b => .bytes b
  | .enum symbol => .enum symbol
  | .message fields => .message (Record.mapFloats fields)
  | .list items => .list (Value.mapItems items)
  | .map entries => .map (Value.mapEntries entries)

/-- A message with other floating-point numbers. -/
def Record.mapFloats : List (String × Value) → List (String × Value)
  | [] => []
  | (name, value) :: rest => (name, value.mapFloats) :: Record.mapFloats rest

/-- The items of a list with other floating-point numbers. -/
def Value.mapItems : List Value → List Value
  | [] => []
  | item :: rest => item.mapFloats :: Value.mapItems rest

/-- The entries of a map with other floating-point numbers. -/
def Value.mapEntries : List (MapKey × Value) → List (MapKey × Value)
  | [] => []
  | (key, value) :: rest => (key, value.mapFloats) :: Value.mapEntries rest

end

theorem Value.mapItems_eq_map (items : List Value) :
    mapItems single double items = items.map (Value.mapFloats single double) := by
  induction items with
  | nil => rfl
  | cons item rest ih => simp only [mapItems, ih, List.map_cons]

theorem Value.mapEntries_eq_map (entries : List (MapKey × Value)) :
    mapEntries single double entries =
      entries.map fun entry => (entry.1, entry.2.mapFloats single double) := by
  induction entries with
  | nil => rfl
  | cons entry rest ih =>
      obtain ⟨key, value⟩ := entry
      simp only [mapEntries, ih, List.map_cons]

end WireCodec
