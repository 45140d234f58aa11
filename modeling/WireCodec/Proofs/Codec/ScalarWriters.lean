import WireCodec.Proofs.Codec.Reference
import WireCodec.Proofs.Wire.BufferHistory
import WireCodec.Proofs.Wire.ShortestVarint
import WireCodec.Proofs.Wire.ZigzagWords

/-! # Writers and readers of scalars

What a writer appends is the form of its value by the rules of the format, and
the reader takes it back, wherever it stands among other bytes. Negative
numbers, zigzag numbers and varints come to the same bytes by shifts and parts.
-/

namespace WireCodec

namespace Cursor

/-- A cursor between two parts of a byte string sees the second one, if the
limit does not cut it. -/
theorem view_between {input : Bytes} {before form after : List UInt8}
    (hinput : input.toList = before ++ form ++ after) {limit : Nat}
    (hlimit : before.length + form.length ≤ limit) (depth : Nat) :
    ∃ rest, view input ⟨before.length, limit, depth⟩ = form ++ rest := by
  refine ⟨after.take (limit - (before.length + form.length)), ?_⟩
  simp only [view, hinput, List.append_assoc]
  rw [List.take_append, List.take_of_length_le (by omega), List.drop_left, List.take_append,
    List.take_of_length_le (by omega), Nat.sub_sub]

end Cursor

namespace Buffer

variable {α : Type}

/-- Whatever was written before and is written after, the write appends a form,
and the read from its start, with a limit not before its end, has the value
and goes to its end. -/
def ReadsBack (write : Buffer → Buffer) (form : List UInt8) (read : Read α) (a : α) : Prop :=
  ∀ (capacity : Nat) (earlier : List WriteOp) (after : Bytes) (limit depth : Nat),
    let start := WriteOp.applyAll (.withCapacity capacity) earlier
    let stop := write start
    let input := (stop.writeRaw after).bytes
    input.toList = start.bytes.toList ++ form ++ after.toList ∧
      (stop.length ≤ limit → limit ≤ input.size →
        read input ⟨start.length, limit, depth⟩ = .ok a ⟨stop.length, limit, depth⟩)

theorem Valid.length_log {buffer : Buffer} (h : buffer.Valid) :
    buffer.log.length = buffer.length := by
  rw [log_eq_take, List.length_take, Array.length_toList, Nat.min_eq_left h.length_le]

/-- A write is read back if it appends a form and the form is read. -/
theorem Appends.readsBack {write : Buffer → Buffer} {form : List UInt8} {read : Read α} {a : α}
    (hwrite : Appends write form) (hread : ∀ depth, Read.Parses read depth form (.ok a)) :
    ReadsBack write form read a := by
  intro capacity earlier after limit depth start stop input
  have hstart : start.Valid := (WriteOp.log_applyAll earlier (valid_withCapacity capacity)).1
  obtain ⟨hstop, hform⟩ := hwrite start hstart
  obtain ⟨-, hafter⟩ := appends_append after.toList stop hstop
  have hinput : input.toList = start.log ++ form ++ after.toList := hafter.trans (by rw [hform])
  refine ⟨hinput, fun hlow hhigh => ?_⟩
  have hlength : stop.length = start.length + form.length := by
    rw [← hstop.length_log, ← hstart.length_log, hform, List.length_append]
  rw [hlength] at hlow ⊢
  have hlimit : start.log.length + form.length ≤ limit := by rwa [hstart.length_log]
  obtain ⟨rest, hview⟩ := Cursor.view_between hinput hlimit depth
  rw [hstart.length_log] at hview
  have hoffset : start.length ≤ limit := Nat.le_trans (Nat.le_add_right _ _) hlow
  exact hread depth input ⟨start.length, limit, depth⟩ rest ⟨hoffset, hhigh⟩ rfl hview

end Buffer

/-- Writers append the forms that the rules of the format demand, and readers
take them back, between any other bytes: scalars of all types, varints, and
keys with a number of at most 29 bits that is not zero. No varint of a number
is shorter than the one that is written, and the numbers that zigzag varints
stand for are twice the number, or one less than twice its magnitude. Cutting
words into parts, and shifting them, come to the same varints. -/
theorem scalar_writers :
    (∀ (type : ScalarType) (x : type.Carrier), (type.wire x).Fits →
      Buffer.ReadsBack (·.writeScalar type x) (Reference.scalar type x) (Read.scalar type) x) ∧
    (∀ x : UInt32,
      Buffer.ReadsBack (·.writeVarint32 x) (Varint.encode x.toNat) Read.varint32 x) ∧
    (∀ x : UInt64,
      Buffer.ReadsBack (·.writeVarint64 x) (Varint.encode x.toNat) Read.varint64 x ∧
      Varint.encodeParts x = Varint.encode x.toNat) ∧
    (∀ key : Key, key.number ≠ 0 → key.number.toNat < 2 ^ 29 → key.wireType.toNat < 8 →
      Buffer.ReadsBack (·.writeKey key)
        (Varint.encode (8 * key.number.toNat + key.wireType.toNat)) Read.key (some key)) ∧
    (∀ n : Nat, Varint.Shortest n (Varint.encode n)) ∧
    (∀ n : Int, (Zigzag.encode n : Int) = if 0 ≤ n then 2 * n else -2 * n - 1) ∧
    (∀ x : Int32, Zigzag.encode32 x = ((x <<< 1) ^^^ (x >>> 31)).toUInt32) ∧
    (∀ x : Int64, Zigzag.encode64 x = ((x <<< 1) ^^^ (x >>> 63)).toUInt64) ∧
    (∀ n : UInt32, Zigzag.decode32 n = (n >>> 1).toInt32 ^^^ -(n &&& 1).toInt32) ∧
    (∀ n : UInt64, Zigzag.decode64 n = (n >>> 1).toInt64 ^^^ -(n &&& 1).toInt64) := by
  refine ⟨?_, ?_, ?_, ?_, Varint.shortest_encode, Zigzag.encode_eq, Zigzag.encode32_eq_shifts,
    Zigzag.encode64_eq_shifts, Zigzag.decode32_eq_shifts, Zigzag.decode64_eq_shifts⟩
  · intro type x hfits
    rw [← Reference.scalar_eq hfits]
    exact (Buffer.appends_writeScalar type x).readsBack fun depth =>
      Read.parses_scalar depth type x hfits
  · exact fun x => (Buffer.appends_writeVarint32 x).readsBack fun depth =>
      Read.parses_varint32_encode depth x
  · exact fun x => ⟨(Buffer.appends_writeVarint64 x).readsBack fun depth =>
      Read.parses_varint64_encode depth x, Varint.encodeParts_eq x⟩
  · intro key hnonzero hnumber htype
    rw [← Key.toNat_word hnumber htype]
    exact (Buffer.appends_writeKey key).readsBack fun depth =>
      Read.parses_key depth hnonzero hnumber htype

/-- The least number of 32 bits, in ten bytes between two others. -/
theorem scalar_writers_least :
    let start := WriteOp.applyAll (.withCapacity 0) [.raw #[8]]
    let input := ((start.writeScalar .int32 (-2147483648)).writeRaw #[1]).bytes
    input = #[8, 128, 128, 128, 128, 248, 255, 255, 255, 255, 1, 1] ∧
      Read.scalar .int32 input ⟨1, 11, 0⟩ = .ok (-2147483648) ⟨11, 11, 0⟩ := by
  intro start input
  have hinput : input = #[8, 128, 128, 128, 128, 248, 255, 255, 255, 255, 1, 1] := by
    decide +kernel
  have hstop : (start.writeScalar .int32 (-2147483648)).length = 11 := by decide +kernel
  obtain ⟨-, hread⟩ :=
    scalar_writers.1 .int32 (-2147483648) trivial 0 [.raw #[8]] #[1] 11 0
  have hread := hread (Nat.le_of_eq hstop) (by decide +kernel)
  dsimp only at hread
  rw [hstop] at hread
  exact ⟨hinput, hread⟩

end WireCodec
