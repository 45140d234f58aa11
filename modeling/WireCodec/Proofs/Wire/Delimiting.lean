import WireCodec.Proofs.Wire.ScalarForm

/-! # Where values end

The wire type of a value says where its bytes end, so bytes that go on in
different ways cannot be taken for one another: values in a row, and keys with
their values, are determined by the bytes that they make up together.
-/

namespace WireCodec

namespace Read

variable {α : Type} {depth : Nat}

/-- A read that parses the start of some bytes in two ways parses it in one. -/
theorem Parses.unique {read : Read α} {first second rest rest' : List UInt8} {a b : α}
    (hfirst : Parses read depth first (.ok a)) (hsecond : Parses read depth second (.ok b))
    (h : first ++ rest = second ++ rest') : a = b ∧ first = second ∧ rest = rest' := by
  -- one input starts in both ways, and from one cursor a read has one outcome
  let input : Bytes := (first ++ rest).toArray
  let cursor : Cursor := { Cursor.start input with depth := depth }
  have hinside : cursor.Inside input := ⟨Nat.zero_le _, Nat.le_refl _⟩
  have hview : cursor.view input = first ++ rest := Cursor.view_start input
  have hrun := hfirst input cursor rest hinside rfl hview
  have hrun' := hsecond input cursor rest' hinside rfl (hview.trans h)
  rw [hrun] at hrun'
  injection hrun' with hvalue hcursor
  have hlength : first.length = second.length := by
    simpa [Cursor.forward] using congrArg Cursor.offset hcursor
  exact ⟨hvalue, List.append_inj h hlength⟩

theorem parses_skipVarint {bytes : List UInt8} (h : Varint.Terminated bytes) :
    Parses skipVarint depth bytes (.ok ()) := by
  have hbyte : ∀ group : UInt8, Parses varintByte depth [group]
      (.ok (if Varint.continues group then some () else none)) := fun group =>
    (parses_byte group).bind_nil (parses_pure _)
  induction h with
  | @last group hlast =>
      have hstep := hbyte group
      rw [hlast] at hstep
      exact parses_iterate_none hstep
  | @more group others hmore hothers ih =>
      have hstep := hbyte group
      rw [hmore] at hstep
      exact hstep.iterate_some ih

theorem parses_skip_payload {payload : List UInt8} (h : payload.length < 2 ^ 32) :
    Parses (skip WireType.lengthDelimited.code) depth (delimitedForm payload) (.ok ()) :=
  (parses_lengthPrefixed depth h).map _

end Read

/-- The bytes of a value end where the wire type says. -/
def WireValue.EndsAs (value : WireValue) (wireType : UInt8) : Prop :=
  ∀ depth, Read.Parses (Read.skip wireType) depth value.bytes (.ok ())

namespace WireValue

theorem EndsAs.append_inj {first second : WireValue} {wireType : UInt8}
    (hfirst : first.EndsAs wireType) (hsecond : second.EndsAs wireType)
    {rest rest' : List UInt8} (h : first.bytes ++ rest = second.bytes ++ rest') :
    first.bytes = second.bytes ∧ rest = rest' :=
  ((hfirst 0).unique (hsecond 0) h).2

theorem endsAs_scalar (type : ScalarType) (x : type.Carrier) (hfits : (type.wire x).Fits) :
    (type.wire x).EndsAs type.wireType.code := by
  intro depth
  have hvarint : ∀ n, Read.Parses (Read.skip WireType.varint.code) depth (Varint.encode n)
      (.ok ()) := fun n => Read.parses_skipVarint (Varint.terminated_encode n)
  have hfixed32 : ∀ n, Read.Parses (Read.skip WireType.fixed32.code) depth (littleEndian 4 n)
      (.ok ()) := fun n => (Read.parses_take depth (littleEndian_length 4 n)).map _
  have hfixed64 : ∀ n, Read.Parses (Read.skip WireType.fixed64.code) depth (littleEndian 8 n)
      (.ok ()) := fun n => (Read.parses_take depth (littleEndian_length 8 n)).map _
  cases type with
  | double | fixed64 | sfixed64 => exact hfixed64 _
  | float | fixed32 | sfixed32 => exact hfixed32 _
  | int32 | int64 | uint32 | uint64 | sint32 | sint64 => exact hvarint _
  | bool =>
      refine Read.parses_skipVarint (.last ?_)
      cases x <;> decide
  | string | bytes => exact Read.parses_skip_payload hfits

theorem endsAs_run {elements : List WireValue} (hfits : (run elements).Fits) :
    (run elements).EndsAs WireType.lengthDelimited.code :=
  fun _ => Read.parses_skip_payload hfits.1

theorem endsAs_message {fields : List (Key × WireValue)} (hfits : (message fields).Fits) :
    (message fields).EndsAs WireType.lengthDelimited.code :=
  fun _ => Read.parses_skip_payload hfits.1

/-- Payloads behind their byte counts are the same when the payloads are. -/
theorem delimitedForm_inj {first second : List UInt8} (hfirst : first.length < 2 ^ 32)
    (hsecond : second.length < 2 ^ 32) :
    delimitedForm first = delimitedForm second ↔ first = second := by
  constructor
  · intro h
    have hunique := (Read.parses_lengthPrefixed 0 hfirst).unique
      (Read.parses_lengthPrefixed 0 hsecond) (congrArg (· ++ []) h)
    simpa using hunique.1
  · rintro rfl
    rfl

/-- A key that its reader takes for what it is, with a value that ends as the
wire type of the key says. -/
structure Keyed (field : Key × WireValue) : Prop where
  number_ne_zero : field.1.number ≠ 0
  number_lt : field.1.number.toNat < 2 ^ 29
  wireType_lt : field.1.wireType.toNat < 8
  value : field.2.EndsAs field.1.wireType

theorem Keyed.append_inj {first second : Key × WireValue} (hfirst : Keyed first)
    (hsecond : Keyed second) {rest rest' : List UInt8}
    (h : first.1.form ++ first.2.bytes ++ rest = second.1.form ++ second.2.bytes ++ rest') :
    first.1 = second.1 ∧ first.2.bytes = second.2.bytes ∧ rest = rest' := by
  rw [List.append_assoc, List.append_assoc] at h
  have hkeys := (Read.parses_key 0 hfirst.number_ne_zero hfirst.number_lt
    hfirst.wireType_lt).unique (Read.parses_key 0 hsecond.number_ne_zero hsecond.number_lt
      hsecond.wireType_lt) h
  have hkey : first.1 = second.1 := Option.some.inj hkeys.1
  have hvalue := hfirst.value
  rw [hkey] at hvalue
  exact ⟨hkey, hvalue.append_inj hsecond.value hkeys.2.2⟩

theorem form_append_ne_nil (field : Key × WireValue) (rest : List UInt8) :
    field.1.form ++ field.2.bytes ++ rest ≠ [] := by
  simp [Key.form, Varint.encode_ne_nil]

/-- The bytes of a message determine its keys, and the bytes of its values. -/
theorem messageBytes_inj {first second : List (Key × WireValue)}
    (hfirst : ∀ field ∈ first, Keyed field) (hsecond : ∀ field ∈ second, Keyed field) :
    messageBytes first = messageBytes second ↔
      first.map (fun field => (field.1, field.2.bytes)) =
        second.map fun field => (field.1, field.2.bytes) := by
  constructor
  · intro h
    induction first generalizing second with
    | nil =>
        cases second with
        | nil => rfl
        | cons field rest => exact absurd h.symm (form_append_ne_nil field _)
    | cons field rest ih =>
        cases second with
        | nil => exact absurd h (form_append_ne_nil field _)
        | cons field' rest' =>
            obtain ⟨hfield, hrest⟩ := List.forall_mem_cons.mp hfirst
            obtain ⟨hfield', hrest'⟩ := List.forall_mem_cons.mp hsecond
            -- the first occurrences end at the same place, since their keys are the same
            obtain ⟨hkey, hvalue, htail⟩ := hfield.append_inj hfield' h
            rw [List.map_cons, List.map_cons, hkey, hvalue, ih hrest hrest' htail]
  · intro h
    have hbytes : ∀ fields : List (Key × WireValue), messageBytes fields =
        (fields.map fun field => (field.1, field.2.bytes)).flatMap
          fun field => field.1.form ++ field.2 := by
      intro fields
      induction fields with
      | nil => rfl
      | cons field rest ih =>
          rw [messageBytes, ih]
          rfl
    rw [hbytes, h, ← hbytes]

/-- The bytes of a run determine the bytes of its elements. -/
theorem runBytes_inj {wireType : UInt8} {first second : List WireValue}
    (hfirst : ∀ element ∈ first, element.EndsAs wireType ∧ element.bytes ≠ [])
    (hsecond : ∀ element ∈ second, element.EndsAs wireType ∧ element.bytes ≠ []) :
    runBytes first = runBytes second ↔ first.map bytes = second.map bytes := by
  constructor
  · intro h
    induction first generalizing second with
    | nil =>
        cases second with
        | nil => rfl
        | cons element rest =>
            refine absurd h.symm (List.append_ne_nil_of_left_ne_nil ?_ _)
            exact (hsecond element List.mem_cons_self).2
    | cons element rest ih =>
        obtain ⟨helement, hrest⟩ := List.forall_mem_cons.mp hfirst
        cases second with
        | nil => exact absurd h (List.append_ne_nil_of_left_ne_nil helement.2 _)
        | cons element' rest' =>
            obtain ⟨helement', hrest'⟩ := List.forall_mem_cons.mp hsecond
            obtain ⟨hbytes, htail⟩ := helement.1.append_inj helement'.1 h
            rw [List.map_cons, List.map_cons, hbytes, ih hrest hrest' htail]
  · intro h
    rw [runBytes_eq_flatten, h, ← runBytes_eq_flatten]

end WireValue

end WireCodec
