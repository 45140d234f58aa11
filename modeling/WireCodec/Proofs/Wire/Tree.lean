import Mathlib.Algebra.Group.Nat.Defs
import WireCodec.Bytes
import WireCodec.Wire.ScalarType

/-! # Wire trees

What an encoding consists of, before it is a list of bytes: keys and values,
where a value may be a length-delimited payload with values of its own. The
bytes, the nesting and the sizes of payloads are read off the tree.
-/

namespace WireCodec

/-- The form of a key: a varint of its word. -/
def Key.form (key : Key) : List UInt8 := Varint.encode key.word.toNat

/-- A payload behind its byte count, of which 32 bits are kept. -/
def delimitedForm (payload : List UInt8) : List UInt8 :=
  Varint.encode (payload.length % 2 ^ 32) ++ payload

/-- A value on the wire, without its key. -/
inductive WireValue where
  /-- A varint or a word of fixed width. -/
  | inline (form : List UInt8)
  /-- A text or byte string, which is read as a whole. -/
  | text (payload : List UInt8)
  /-- A packed run of values without keys. -/
  | run (elements : List WireValue)
  /-- A nested message or a map entry. -/
  | message (fields : List (Key × WireValue))

namespace WireValue

mutual

/-- The bytes of a value. -/
def bytes : WireValue → List UInt8
  | inline form => form
  | text payload => delimitedForm payload
  | run elements => delimitedForm (runBytes elements)
  | message fields => delimitedForm (messageBytes fields)

/-- The bytes of values without keys. -/
def runBytes : List WireValue → List UInt8
  | [] => []
  | element :: rest => element.bytes ++ runBytes rest

/-- The bytes of values with their keys. -/
def messageBytes : List (Key × WireValue) → List UInt8
  | [] => []
  | (key, value) :: rest => key.form ++ value.bytes ++ messageBytes rest

end

mutual

/-- How many payloads are open at once at most while a value is read. Texts
are read without being opened. -/
def depth : WireValue → Nat
  | inline _ => 0
  | text _ => 0
  | run elements => runDepth elements + 1
  | message fields => messageDepth fields + 1

/-- The largest depth of values without keys. -/
def runDepth : List WireValue → Nat
  | [] => 0
  | element :: rest => max element.depth (runDepth rest)

/-- The largest depth of values with keys. -/
def messageDepth : List (Key × WireValue) → Nat
  | [] => 0
  | (_, value) :: rest => max value.depth (messageDepth rest)

end

mutual

/-- How many messages and map entries lie within one another at most, apart
from packed runs. -/
def nesting : WireValue → Nat
  | inline _ => 0
  | text _ => 0
  | run elements => runNesting elements
  | message fields => messageNesting fields + 1

/-- The largest nesting of values without keys. -/
def runNesting : List WireValue → Nat
  | [] => 0
  | element :: rest => max element.nesting (runNesting rest)

/-- The largest nesting of values with keys. -/
def messageNesting : List (Key × WireValue) → Nat
  | [] => 0
  | (_, value) :: rest => max value.nesting (messageNesting rest)

end

mutual

/-- Every payload is shorter than 2³² bytes, so that its byte count is exact. -/
def Fits : WireValue → Prop
  | inline _ => True
  | text payload => payload.length < 2 ^ 32
  | run elements => (runBytes elements).length < 2 ^ 32 ∧ RunFits elements
  | message fields => (messageBytes fields).length < 2 ^ 32 ∧ MessageFits fields

/-- Every payload among values without keys is shorter than 2³² bytes. -/
def RunFits : List WireValue → Prop
  | [] => True
  | element :: rest => element.Fits ∧ RunFits rest

/-- Every payload among values with keys is shorter than 2³² bytes. -/
def MessageFits : List (Key × WireValue) → Prop
  | [] => True
  | (_, value) :: rest => value.Fits ∧ MessageFits rest

end

theorem messageBytes_append (first second : List (Key × WireValue)) :
    messageBytes (first ++ second) = messageBytes first ++ messageBytes second := by
  induction first with
  | nil => rfl
  | cons field rest ih => simp only [List.cons_append, messageBytes, ih, List.append_assoc]

theorem messageBytes_flatMap {α : Type} (items : List α) (parts : α → List (Key × WireValue)) :
    messageBytes (items.flatMap parts) = items.flatMap fun item => messageBytes (parts item) := by
  induction items with
  | nil => rfl
  | cons item rest ih => rw [List.flatMap_cons, messageBytes_append, ih, List.flatMap_cons]

theorem messageBytes_map (key : Key) (values : List WireValue) :
    messageBytes (values.map (key, ·)) = values.flatMap fun value => key.form ++ value.bytes := by
  induction values with
  | nil => rfl
  | cons value rest ih => rw [List.map_cons, messageBytes, ih, List.flatMap_cons]

theorem runBytes_eq_flatten (elements : List WireValue) :
    runBytes elements = (elements.map bytes).flatten := by
  induction elements with
  | nil => rfl
  | cons element rest ih => rw [runBytes, ih, List.map_cons, List.flatten_cons]

theorem messageDepth_append (first second : List (Key × WireValue)) :
    messageDepth (first ++ second) = max (messageDepth first) (messageDepth second) := by
  induction first with
  | nil => simp [messageDepth]
  | cons field rest ih => simp only [List.cons_append, messageDepth, ih, Nat.max_assoc]

theorem runNesting_le_iff {elements : List WireValue} {bound : Nat} :
    runNesting elements ≤ bound ↔ ∀ element ∈ elements, element.nesting ≤ bound := by
  induction elements with
  | nil => simp [runNesting]
  | cons element rest ih => rw [runNesting, Nat.max_le, ih, List.forall_mem_cons]

theorem messageNesting_le_iff {fields : List (Key × WireValue)} {bound : Nat} :
    messageNesting fields ≤ bound ↔ ∀ field ∈ fields, field.2.nesting ≤ bound := by
  induction fields with
  | nil => simp [messageNesting]
  | cons field rest ih => rw [messageNesting, Nat.max_le, ih, List.forall_mem_cons]

theorem runFits_iff {elements : List WireValue} :
    RunFits elements ↔ ∀ element ∈ elements, element.Fits := by
  induction elements with
  | nil => simp [RunFits]
  | cons element rest ih => simp [RunFits, ih]

theorem messageFits_iff {fields : List (Key × WireValue)} :
    MessageFits fields ↔ ∀ field ∈ fields, field.2.Fits := by
  induction fields with
  | nil => simp [MessageFits]
  | cons field rest ih => simp [MessageFits, ih]

theorem length_le_delimitedForm (payload : List UInt8) :
    payload.length ≤ (delimitedForm payload).length := by
  simp [delimitedForm]

mutual

/-- A value of less than 2³² bytes has no longer payloads in it. -/
theorem fits_of_length : (value : WireValue) → value.bytes.length < 2 ^ 32 → value.Fits
  | inline _, _ => trivial
  | text payload, h => Nat.lt_of_le_of_lt (length_le_delimitedForm payload) h
  | run elements, h => by
    have hpayload := Nat.lt_of_le_of_lt (length_le_delimitedForm (runBytes elements)) h
    exact ⟨hpayload, runFits_of_length elements hpayload⟩
  | message fields, h => by
    have hpayload := Nat.lt_of_le_of_lt (length_le_delimitedForm (messageBytes fields)) h
    exact ⟨hpayload, messageFits_of_length fields hpayload⟩

theorem runFits_of_length : (elements : List WireValue) →
    (runBytes elements).length < 2 ^ 32 → RunFits elements
  | [], _ => trivial
  | element :: rest, h => by
    rw [runBytes, List.length_append] at h
    exact ⟨fits_of_length element (by omega), runFits_of_length rest (by omega)⟩

theorem messageFits_of_length : (fields : List (Key × WireValue)) →
    (messageBytes fields).length < 2 ^ 32 → MessageFits fields
  | [], _ => trivial
  | (_, value) :: rest, h => by
    rw [messageBytes, List.length_append, List.length_append] at h
    exact ⟨fits_of_length value (by omega), messageFits_of_length rest (by omega)⟩

end

end WireValue

end WireCodec
