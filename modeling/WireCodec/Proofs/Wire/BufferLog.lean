import WireCodec.Proofs.Wire.ScalarForm
import WireCodec.Wire.BufferPool

/-! # Buffers as logs

Whatever storage a buffer has and whatever older bytes lie in it, a write
appends the form of its value to the bytes that count, and nothing else.
-/

namespace WireCodec

namespace Buffer

/-- The bytes that count lie in the storage, and there is storage to double. -/
structure Valid (buffer : Buffer) : Prop where
  length_le : buffer.length ≤ buffer.storage.size
  size_pos : 0 < buffer.storage.size

/-- The bytes written since the buffer was made or reset, as a list. -/
def log (buffer : Buffer) : List UInt8 := buffer.bytes.toList

/-- A write appends a form to the log of every buffer. -/
def Appends (write : Buffer → Buffer) (form : List UInt8) : Prop :=
  ∀ buffer : Buffer, buffer.Valid → (write buffer).Valid ∧ (write buffer).log = buffer.log ++ form

theorem log_eq_take (buffer : Buffer) : buffer.log = buffer.storage.toList.take buffer.length := by
  simp [log, bytes]

theorem valid_withCapacity (capacity : Nat) : (withCapacity capacity).Valid := by
  refine ⟨Nat.zero_le _, ?_⟩
  simp only [withCapacity, Array.size_replicate]
  omega

theorem log_withCapacity (capacity : Nat) : (withCapacity capacity).log = [] := by
  simp [log_eq_take, withCapacity]

theorem valid_reset {buffer : Buffer} (h : buffer.Valid) : buffer.reset.Valid :=
  ⟨Nat.zero_le _, h.size_pos⟩

theorem log_reset (buffer : Buffer) : buffer.reset.log = [] := by
  simp [log_eq_take, reset]

theorem le_doubleUntil (needed : Nat) {capacity : Nat} (hpos : 0 < capacity) :
    needed ≤ doubleUntil needed capacity ∧ capacity ≤ doubleUntil needed capacity := by
  induction capacity using doubleUntil.induct needed with
  | case1 capacity hdone =>
      rw [doubleUntil, if_pos hdone]
      omega
  | case2 capacity hmore ih =>
      rw [doubleUntil, if_neg hmore]
      have hnext := ih (by omega)
      omega

theorem size_reserve {buffer : Buffer} (h : buffer.Valid) (extra : Nat) :
    buffer.length + extra ≤ (buffer.reserve extra).storage.size ∧
      buffer.storage.size ≤ (buffer.reserve extra).storage.size := by
  have henough := le_doubleUntil (buffer.length + extra) h.size_pos
  simp only [reserve, capacity, Array.size_append, Array.size_replicate]
  omega

theorem log_reserve {buffer : Buffer} (h : buffer.Valid) (extra : Nat) :
    (buffer.reserve extra).log = buffer.log := by
  have hlength := h.length_le
  simp only [log_eq_take, reserve, Array.toList_append]
  rw [List.take_append_of_le_length (by simpa using hlength)]

theorem log_store {buffer : Buffer} {byte : UInt8} (hroom : buffer.length < buffer.capacity) :
    (buffer.store byte).log = buffer.log ++ [byte] := by
  simp only [log_eq_take, store, Array.toList_setIfInBounds]
  rw [List.take_succ_eq_append_getElem (by simpa [capacity] using hroom), List.getElem_set_self,
    List.take_set_of_le (Nat.le_refl _)]

@[simp]
theorem length_store (buffer : Buffer) (byte : UInt8) :
    (buffer.store byte).length = buffer.length + 1 :=
  rfl

@[simp]
theorem capacity_store (buffer : Buffer) (byte : UInt8) :
    (buffer.store byte).capacity = buffer.capacity :=
  Array.size_setIfInBounds

@[simp]
theorem capacity_storeAll (buffer : Buffer) (form : List UInt8) :
    (buffer.storeAll form).capacity = buffer.capacity := by
  induction form generalizing buffer with
  | nil => rfl
  | cons byte rest ih => exact (ih _).trans (capacity_store buffer byte)

@[simp]
theorem length_storeAll (buffer : Buffer) (form : List UInt8) :
    (buffer.storeAll form).length = buffer.length + form.length := by
  induction form generalizing buffer with
  | nil => rfl
  | cons byte rest ih =>
      refine (ih _).trans ?_
      rw [length_store, List.length_cons, Nat.add_assoc, Nat.add_comm 1]

/-- A form for which there is room is stored behind the bytes that count. -/
theorem log_storeAll {buffer : Buffer} {form : List UInt8}
    (hroom : buffer.length + form.length ≤ buffer.capacity) :
    (buffer.storeAll form).log = buffer.log ++ form := by
  induction form generalizing buffer with
  | nil => exact (List.append_nil _).symm
  | cons byte rest ih =>
      rw [List.length_cons] at hroom
      have hstore : (buffer.store byte).log = buffer.log ++ [byte] := log_store (by omega)
      have hroom' : (buffer.store byte).length + rest.length ≤ (buffer.store byte).capacity := by
        rw [capacity_store, length_store]
        omega
      refine (ih hroom').trans ?_
      rw [hstore, List.append_assoc, List.singleton_append]

theorem appends_reserve_storeAll {extra : Nat} {form : List UInt8} (h : form.length ≤ extra) :
    Appends (fun buffer => (buffer.reserve extra).storeAll form) form := by
  intro buffer hvalid
  obtain ⟨hroom, hmore⟩ := size_reserve hvalid extra
  have hstored : (buffer.reserve extra).length + form.length ≤ (buffer.reserve extra).capacity :=
    Nat.le_trans (Nat.add_le_add_left h _) hroom
  refine ⟨⟨?_, ?_⟩, ?_⟩
  · rw [length_storeAll]
    exact Nat.le_trans hstored (Nat.le_of_eq (capacity_storeAll _ form).symm)
  · exact Nat.lt_of_lt_of_eq (Nat.lt_of_lt_of_le hvalid.size_pos hmore)
      (capacity_storeAll _ form).symm
  · dsimp only
    rw [log_storeAll hstored, log_reserve hvalid]

theorem appends_append (form : List UInt8) : Appends (·.append form) form :=
  appends_reserve_storeAll (Nat.le_refl _)

theorem Appends.trans {first second : Buffer → Buffer} {form form' : List UInt8}
    (hfirst : Appends first form) (hsecond : Appends second form') :
    Appends (fun buffer => second (first buffer)) (form ++ form') := by
  intro buffer hvalid
  obtain ⟨hvalid', hlog⟩ := hfirst buffer hvalid
  obtain ⟨hvalid'', hlog'⟩ := hsecond _ hvalid'
  exact ⟨hvalid'', by rw [hlog', hlog, List.append_assoc]⟩

theorem appends_writeVarint32 (value : UInt32) :
    Appends (·.writeVarint32 value) (Varint.encode value.toNat) :=
  appends_reserve_storeAll
    (Varint.length_encode_le (by decide) (Nat.lt_trans value.toNat_lt (by decide)))

theorem appends_writeVarint64 (value : UInt64) :
    Appends (·.writeVarint64 value) (Varint.encode value.toNat) :=
  appends_append _

theorem appends_writeKey (key : Key) : Appends (·.writeKey key) key.form :=
  appends_writeVarint32 key.word

theorem appends_writeDelimited (payload : Bytes) :
    Appends (·.writeDelimited payload) (delimitedForm payload.toList) := by
  have h := (appends_writeVarint32 (UInt32.ofNat payload.size)).trans
    (appends_append payload.toList)
  rwa [UInt32.toNat_ofNat', ← Array.length_toList] at h

theorem appends_writeDelimitedField (number : UInt32) (payload : Bytes) :
    Appends (·.writeDelimitedField number payload)
      (Key.form ⟨number, WireType.lengthDelimited.code⟩ ++ delimitedForm payload.toList) :=
  (appends_writeKey _).trans (appends_writeDelimited payload)

theorem appends_writeScalar (type : ScalarType) (x : type.Carrier) :
    Appends (·.writeScalar type x) (type.wire x).bytes := by
  cases type with
  | double | float | fixed32 | fixed64 | sfixed32 | sfixed64 => exact appends_append _
  | int32 => exact appends_writeVarint64 _
  | int64 => exact appends_writeVarint64 _
  | uint32 => exact appends_writeVarint32 x
  | uint64 => exact appends_writeVarint64 x
  | sint32 => exact appends_writeVarint32 _
  | sint64 => exact appends_writeVarint64 _
  | bool => exact appends_append _
  | string => exact appends_writeDelimited _
  | bytes => exact appends_writeDelimited x

end Buffer

end WireCodec
