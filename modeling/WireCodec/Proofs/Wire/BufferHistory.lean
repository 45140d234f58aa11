import Mathlib.Data.List.DropRight
import Mathlib.Order.Bounds.Basic
import WireCodec.Proofs.Wire.BufferLog

/-! # Histories of buffers

After any operations the bytes of a buffer that count are the forms that were
written since the last reset, one behind the other. Its capacity is the first
one, doubled only when there is no room and only as often as room demands.
-/

namespace WireCodec

namespace Buffer

/-! ## Capacities -/

/-- What doubling makes of a first capacity. -/
def capacities (first : Nat) : Set Nat := {n | ∃ k, n = first * 2 ^ k}

theorem doubleUntil_of_le {needed capacity : Nat} (h : needed ≤ capacity) :
    doubleUntil needed capacity = capacity := by
  rw [doubleUntil, if_pos (.inl h)]

theorem exists_doubleUntil (needed : Nat) {capacity : Nat} (hpos : 0 < capacity) :
    ∃ k, doubleUntil needed capacity = capacity * 2 ^ k ∧ ∀ j < k, capacity * 2 ^ j < needed := by
  induction capacity using doubleUntil.induct needed with
  | case1 capacity hdone =>
      refine ⟨0, ?_, fun j hj => absurd hj (Nat.not_lt_zero j)⟩
      rw [doubleUntil, if_pos hdone, Nat.pow_zero, Nat.mul_one]
  | case2 capacity hmore ih =>
      obtain ⟨k, hdouble, hless⟩ := ih (by omega)
      refine ⟨k + 1, ?_, ?_⟩
      · rw [doubleUntil, if_neg hmore, hdouble, Nat.pow_succ']
        ac_rfl
      · intro j hj
        cases j with
        | zero => omega
        | succ j =>
            have h := hless j (Nat.lt_of_succ_lt_succ hj)
            rw [Nat.pow_succ']
            rwa [Nat.mul_comm 2, Nat.mul_assoc] at h

/-- Doubling stops at the first capacity that holds what is needed. -/
theorem isLeast_doubleUntil {first needed capacity : Nat} (hpos : 0 < capacity)
    (hcapacity : capacity ∈ capacities first) (hless : capacity < needed) :
    IsLeast {n ∈ capacities first | needed ≤ n} (doubleUntil needed capacity) := by
  obtain ⟨done, rfl⟩ := hcapacity
  obtain ⟨k, hdouble, hbelow⟩ := exists_doubleUntil needed hpos
  refine ⟨⟨⟨done + k, ?_⟩, (le_doubleUntil needed hpos).1⟩, ?_⟩
  · rw [hdouble, Nat.mul_assoc, Nat.pow_add]
  · rintro n ⟨⟨other, rfl⟩, hneeded⟩
    have hother : done + k ≤ other := by
      by_contra hlt
      rcases Nat.lt_or_ge other done with hearly | hlate
      · have hmono : first * 2 ^ other ≤ first * 2 ^ done :=
          Nat.mul_le_mul_left _ (Nat.pow_le_pow_right (by decide) (Nat.le_of_lt hearly))
        omega
      · have h := hbelow (other - done) (by omega)
        rw [Nat.mul_assoc, ← Nat.pow_add, Nat.add_sub_cancel' hlate] at h
        omega
    rw [hdouble, Nat.mul_assoc, ← Nat.pow_add]
    exact Nat.mul_le_mul_left _ (Nat.pow_le_pow_right (by decide) hother)

theorem capacity_reserve {buffer : Buffer} (h : buffer.Valid) (extra : Nat) :
    (buffer.reserve extra).capacity = doubleUntil (buffer.length + extra) buffer.capacity := by
  have henough := le_doubleUntil (buffer.length + extra) h.size_pos
  simp only [reserve, capacity, Array.size_append, Array.size_replicate]
  omega

/-- A buffer whose capacity came from a first one by doubling. -/
structure Doubled (first : Nat) (buffer : Buffer) : Prop extends buffer.Valid where
  capacity_mem : buffer.capacity ∈ capacities first

/-- A write that reserves some room and stores a form in it, byte by byte. All
stores lie in the storage. The storage stays if it has the room, and else gets
the least capacity that does. -/
structure StoresInRoom (first reserved : Nat) (form : List UInt8) (buffer after : Buffer) :
    Prop where
  after_eq : after = (buffer.reserve reserved).storeAll form
  inside : ∀ count < form.length,
    let stored := (buffer.reserve reserved).storeAll (form.take count)
    stored.length < stored.capacity
  stays : buffer.length + reserved ≤ buffer.capacity → after.capacity = buffer.capacity
  grows : buffer.capacity < buffer.length + reserved →
    IsLeast {n ∈ capacities first | buffer.length + reserved ≤ n} after.capacity

theorem Doubled.storesInRoom {first : Nat} {buffer : Buffer} (h : Doubled first buffer)
    {reserved : Nat} {form : List UInt8} (hform : form.length ≤ reserved) :
    StoresInRoom first reserved form buffer ((buffer.reserve reserved).storeAll form) where
  after_eq := rfl
  inside := by
    intro count hcount
    have hroom := (size_reserve h.toValid reserved).1
    simp only [capacity_storeAll, length_storeAll, List.length_take]
    exact Nat.lt_of_lt_of_le (Nat.add_lt_add_left (by omega) _) hroom
  stays := by
    intro hroom
    rw [capacity_storeAll, capacity_reserve h.toValid, doubleUntil_of_le hroom]
  grows := by
    intro hless
    rw [capacity_storeAll, capacity_reserve h.toValid]
    exact isLeast_doubleUntil h.size_pos h.capacity_mem hless

end Buffer

/-! ## Forms of operations -/

/-- The form of a primitive value. -/
def Primitive.form : (type : Primitive) → type.Carrier → List UInt8
  | .byte, x => [x]
  | .varint32, x => Varint.encode x.toNat
  | .varint64, x => Varint.encode x.toNat
  | .scalar type, x => (type.wire x).bytes

namespace WriteOp

open Buffer

def isReset : WriteOp → Bool
  | reset => true
  | _ => false

mutual

/-- What an operation writes. -/
def form : WriteOp → List UInt8
  | value type x => type.form x
  | raw payload => payload.toList
  | delimited payload => delimitedForm payload.toList
  | key written => written.form
  | delimitedField number payload =>
      Key.form ⟨number, WireType.lengthDelimited.code⟩ ++ delimitedForm payload.toList
  | messageField number encoded =>
      Key.form ⟨number, WireType.lengthDelimited.code⟩ ++ delimitedForm encoded.toList
  | packedField number elements =>
      if elements.isEmpty then []
      else Key.form ⟨number, WireType.lengthDelimited.code⟩ ++ delimitedForm (written elements)
  | reset => []

/-- What operations write and do not take back: the forms behind which there
is no reset. -/
def written : List WriteOp → List UInt8
  | [] => []
  | op :: rest => if rest.any isReset then written rest else op.form ++ written rest

end

theorem written_concat (ops : List WriteOp) (op : WriteOp) :
    written (ops ++ [op]) = if op.isReset then [] else written ops ++ op.form := by
  induction ops with
  | nil => cases op <;> simp [written, isReset, form]
  | cons first rest ih =>
      simp only [List.cons_append, written, ih, List.any_append, List.any_cons, List.any_nil,
        Bool.or_false]
      cases op.isReset <;> cases rest.any isReset <;> simp

/-- What is written is the forms of the operations after the last reset. -/
theorem written_eq_flatMap (ops : List WriteOp) :
    written ops = (ops.rtakeWhile (!·.isReset)).flatMap form := by
  induction ops using List.reverseRecOn with
  | nil => rfl
  | append_singleton ops op ih =>
      rw [written_concat, List.rtakeWhile_concat]
      cases op.isReset <;> simp [ih]

theorem appends_writePrimitive (type : Primitive) (x : type.Carrier) :
    Appends (·.writePrimitive type x) (type.form x) := by
  cases type with
  | byte => exact appends_append [x]
  | varint32 => exact appends_writeVarint32 x
  | varint64 => exact appends_writeVarint64 x
  | scalar type => exact appends_writeScalar type x

theorem bytes_eq_of_log {buffer : Buffer} {form : List UInt8} (h : buffer.log = form) :
    buffer.bytes = form.toArray := by
  rw [← h, log, Array.toArray_toList]

/-- An encoded message goes through a buffer of its own as it is. -/
theorem bytes_writeRaw_empty (payload : Bytes) : (empty.writeRaw payload).bytes = payload :=
  bytes_eq_of_log (appends_append payload.toList empty (valid_withCapacity _)).2

mutual

/-- A reset takes back what the log holds, and any other operation appends its
form to it. -/
theorem log_apply (op : WriteOp) {buffer : Buffer} (h : buffer.Valid) :
    (op.apply buffer).Valid ∧
      (op.apply buffer).log = (if op.isReset then [] else buffer.log) ++ op.form := by
  match op with
  | value type x => exact appends_writePrimitive type x buffer h
  | raw payload => exact appends_append payload.toList buffer h
  | delimited payload => exact appends_writeDelimited payload buffer h
  | key written => exact appends_writeKey written buffer h
  | delimitedField number payload => exact appends_writeDelimitedField number payload buffer h
  | messageField number encoded =>
      rw [apply, bytes_writeRaw_empty]
      exact appends_writeDelimitedField number encoded buffer h
  | packedField number [] => exact ⟨h, (List.append_nil _).symm⟩
  | packedField number (first :: rest) =>
      have hrun : (applyAll (first.apply .empty) rest).log = written (first :: rest) := by
        refine (log_applyAll (first :: rest) (valid_withCapacity initialCapacity)).2.trans ?_
        rw [log_withCapacity, ite_self, List.nil_append]
      rw [apply, bytes_eq_of_log hrun]
      exact appends_writeDelimitedField number (written (first :: rest)).toArray buffer h
  | reset => exact ⟨valid_reset h, log_reset buffer⟩

theorem log_applyAll (ops : List WriteOp) {buffer : Buffer} (h : buffer.Valid) :
    (applyAll buffer ops).Valid ∧
      (applyAll buffer ops).log = (if ops.any isReset then [] else buffer.log) ++ written ops := by
  match ops with
  | [] => exact ⟨h, (List.append_nil _).symm⟩
  | op :: rest =>
      obtain ⟨hvalid, hlog⟩ := log_apply op h
      obtain ⟨hvalid', hlog'⟩ := log_applyAll rest hvalid
      refine ⟨hvalid', hlog'.trans ?_⟩
      rw [hlog, written, List.any_cons]
      cases op.isReset <;> cases rest.any isReset <;> simp

end

theorem log_applyAll_withCapacity (capacity : Nat) (ops : List WriteOp) :
    (applyAll (.withCapacity capacity) ops).log = written ops := by
  rw [(log_applyAll ops (valid_withCapacity capacity)).2, log_withCapacity, ite_self,
    List.nil_append]

/-! ## Primitive writes -/

/-- How much room an operation reserves, if it is a primitive write: five
bytes for any varint of 32 bits, and for all else what its form takes. -/
def reserves? : WriteOp → Option Nat
  | value .byte _ => some 1
  | value .varint32 _ => some 5
  | value .varint64 x => some (Varint.encode x.toNat).length
  | raw payload => some payload.size
  | _ => none

/-- The primitive writes and resets that an operation comes down to. -/
def parts : WriteOp → List WriteOp
  | value (.scalar .double) x => [raw (littleEndian 8 x.bits.toNat).toArray]
  | value (.scalar .float) x => [raw (littleEndian 4 x.bits.toNat).toArray]
  | value (.scalar .int32) x => [value .varint64 x.toInt64.toUInt64]
  | value (.scalar .int64) x => [value .varint64 x.toUInt64]
  | value (.scalar .uint32) x => [value .varint32 x]
  | value (.scalar .uint64) x => [value .varint64 x]
  | value (.scalar .sint32) x => [value .varint32 (Zigzag.encode32 x)]
  | value (.scalar .sint64) x => [value .varint64 (Zigzag.encode64 x)]
  | value (.scalar .fixed32) x => [raw (littleEndian 4 x.toNat).toArray]
  | value (.scalar .fixed64) x => [raw (littleEndian 8 x.toNat).toArray]
  | value (.scalar .sfixed32) x => [raw (littleEndian 4 x.toUInt32.toNat).toArray]
  | value (.scalar .sfixed64) x => [raw (littleEndian 8 x.toUInt64.toNat).toArray]
  | value (.scalar .bool) x => [value .byte (if x then 1 else 0)]
  | value (.scalar .string) x => delimitedParts (Bytes.ofText x)
  | value (.scalar .bytes) x => delimitedParts x
  | delimited payload => delimitedParts payload
  | key written => [value .varint32 written.word]
  | delimitedField number payload => fieldParts number payload
  | messageField number encoded => fieldParts number encoded
  | packedField number elements =>
      if elements.isEmpty then [] else fieldParts number (written elements).toArray
  | op => [op]
where
  delimitedParts (payload : Bytes) : List WriteOp :=
    [value .varint32 (UInt32.ofNat payload.size), raw payload]
  fieldParts (number : UInt32) (payload : Bytes) : List WriteOp :=
    value .varint32 (Key.word ⟨number, WireType.lengthDelimited.code⟩) :: delimitedParts payload

theorem apply_eq_parts (op : WriteOp) (buffer : Buffer) :
    op.apply buffer = applyAll buffer op.parts := by
  cases op with
  | value type x =>
      cases type with
      | scalar type => cases type <;> rfl
      | byte => rfl
      | varint32 => rfl
      | varint64 => rfl
  | messageField number encoded =>
      rw [apply, bytes_writeRaw_empty]
      rfl
  | packedField number elements =>
      cases elements with
      | nil => rfl
      | cons first rest =>
          have hrun : (applyAll (first.apply .empty) rest).log = written (first :: rest) :=
            log_applyAll_withCapacity initialCapacity (first :: rest)
          rw [apply, bytes_eq_of_log hrun]
          rfl
  | raw payload => rfl
  | delimited payload => rfl
  | key written => rfl
  | delimitedField number payload => rfl
  | reset => rfl

theorem eq_reset_of_isReset {op : WriteOp} (h : op.isReset = true) : op = reset := by
  cases op with
  | reset => rfl
  | _ => exact nomatch h

theorem reserves_of_mem_parts {op part : WriteOp} (h : part ∈ op.parts) :
    part = reset ∨ ∃ reserved, part.reserves? = some reserved := by
  have hall : op.parts.all fun part => part.isReset || part.reserves?.isSome := by
    cases op with
    | value type x =>
        cases type with
        | scalar type => cases type <;> rfl
        | _ => rfl
    | packedField number elements => cases elements <;> rfl
    | _ => rfl
  have hpart := List.all_eq_true.mp hall part h
  rw [Bool.or_eq_true, Option.isSome_iff_exists] at hpart
  exact hpart.imp_left eq_reset_of_isReset

variable {first : Nat} {buffer : Buffer}

theorem storesInRoom_apply (hbuffer : Doubled first buffer) {op : WriteOp} {reserved : Nat}
    (hop : op.reserves? = some reserved) :
    StoresInRoom first reserved op.form buffer (op.apply buffer) := by
  cases op with
  | value type x =>
      cases type with
      | byte =>
          obtain rfl := Option.some.inj hop
          exact hbuffer.storesInRoom (Nat.le_refl 1)
      | varint32 =>
          obtain rfl := Option.some.inj hop
          exact hbuffer.storesInRoom
            (Varint.length_encode_le (by decide) (Nat.lt_trans x.toNat_lt (by decide)))
      | varint64 =>
          obtain rfl := Option.some.inj hop
          exact hbuffer.storesInRoom (Nat.le_refl _)
      | scalar type => exact nomatch hop
  | raw payload =>
      obtain rfl := Option.some.inj hop
      exact hbuffer.storesInRoom (Nat.le_refl _)
  | _ => exact nomatch hop

/-! ## What a step and a run preserve -/

/-- A step keeps to the capacities, and does not go back in them. -/
def Grows (first : Nat) (op : WriteOp) : Prop :=
  ∀ buffer : Buffer, Doubled first buffer →
    Doubled first (op.apply buffer) ∧ buffer.capacity ≤ (op.apply buffer).capacity

theorem grows_of_reserves {op : WriteOp} {reserved : Nat} (hop : op.reserves? = some reserved) :
    Grows first op := by
  intro buffer hbuffer
  have hstores := storesInRoom_apply hbuffer hop
  have hvalid := (log_apply op hbuffer.toValid).1
  rcases Nat.lt_or_ge buffer.capacity (buffer.length + reserved) with hless | hroom
  · obtain ⟨⟨hmem, hneeded⟩, -⟩ := hstores.grows hless
    exact ⟨⟨hvalid, hmem⟩, Nat.le_of_lt (Nat.lt_of_lt_of_le hless hneeded)⟩
  · have hsame := hstores.stays hroom
    exact ⟨⟨hvalid, hsame ▸ hbuffer.capacity_mem⟩, Nat.le_of_eq hsame.symm⟩

theorem grows_reset : Grows first reset := fun _ hbuffer =>
  ⟨⟨valid_reset hbuffer.toValid, hbuffer.capacity_mem⟩, Nat.le_refl _⟩

theorem doubled_applyAll_of_grows {ops : List WriteOp} (h : ∀ op ∈ ops, Grows first op)
    (hbuffer : Doubled first buffer) :
    Doubled first (applyAll buffer ops) ∧ buffer.capacity ≤ (applyAll buffer ops).capacity := by
  induction ops generalizing buffer with
  | nil => exact ⟨hbuffer, Nat.le_refl _⟩
  | cons op rest ih =>
      obtain ⟨hnext, hle⟩ := h op List.mem_cons_self buffer hbuffer
      obtain ⟨hlast, hle'⟩ := ih (fun op hop => h op (List.mem_cons_of_mem _ hop)) hnext
      exact ⟨hlast, Nat.le_trans hle hle'⟩

theorem grows (op : WriteOp) : Grows first op := by
  intro buffer hbuffer
  rw [apply_eq_parts]
  refine doubled_applyAll_of_grows ?_ hbuffer
  intro part hpart
  obtain rfl | ⟨reserved, hreserves⟩ := reserves_of_mem_parts hpart
  · exact grows_reset
  · exact grows_of_reserves hreserves

theorem doubled_withCapacity (capacity : Nat) :
    Doubled (max capacity 1) (.withCapacity capacity) where
  toValid := valid_withCapacity capacity
  capacity_mem := ⟨0, by simp [withCapacity, Buffer.capacity]⟩

theorem doubled_applyAll (capacity : Nat) (ops : List WriteOp) :
    Doubled (max capacity 1) (applyAll (.withCapacity capacity) ops) :=
  (doubled_applyAll_of_grows (fun op _ => grows op) (doubled_withCapacity capacity)).1

theorem applyAll_append (buffer : Buffer) (earlier later : List WriteOp) :
    applyAll buffer (earlier ++ later) = applyAll (applyAll buffer earlier) later := by
  induction earlier generalizing buffer with
  | nil => rfl
  | cons op rest ih => exact ih _

end WriteOp

open WriteOp in
/-- A buffer of any first capacity holds, after any operations, the forms that
were written since the last reset, whatever older bytes its storage has. Its
capacity is the first one (of at least one byte) doubled some number of times,
and no operation makes it less. A primitive write stores in bounds, and lets
the capacity grow only if what it reserves has no room, to the least one that
has the room; all operations come down to such writes. -/
theorem buffer_history (capacity : Nat) (ops : List WriteOp) :
    let first := max capacity 1
    let buffer := applyAll (.withCapacity capacity) ops
    buffer.bytes.toList = (ops.rtakeWhile (!·.isReset)).flatMap form ∧
      buffer.length = buffer.bytes.size ∧
      buffer.length ≤ buffer.capacity ∧
      buffer.capacity ∈ Buffer.capacities first ∧
      (∀ op : WriteOp, buffer.capacity ≤ (op.apply buffer).capacity) ∧
      (reset.apply buffer).capacity = buffer.capacity ∧
      (∀ (op : WriteOp) (reserved : Nat), op.reserves? = some reserved →
        Buffer.StoresInRoom first reserved op.form buffer (op.apply buffer)) ∧
      ∀ op : WriteOp, op.apply buffer = applyAll buffer op.parts ∧
        ∀ earlier part later, op.parts = earlier ++ part :: later →
          part = reset ∨ ∃ reserved, part.reserves? = some reserved ∧
            Buffer.StoresInRoom first reserved part.form (applyAll buffer earlier)
              (applyAll buffer (earlier ++ [part])) := by
  intro first buffer
  have hbuffer : Buffer.Doubled first buffer := doubled_applyAll capacity ops
  refine ⟨?_, ?_, hbuffer.length_le, hbuffer.capacity_mem, ?_, rfl, ?_, ?_⟩
  · rw [← written_eq_flatMap]
    exact log_applyAll_withCapacity capacity ops
  · rw [Buffer.bytes, Array.size_extract, Nat.min_eq_left hbuffer.length_le, Nat.sub_zero]
  · exact fun op => (grows op buffer hbuffer).2
  · exact fun op reserved hop => storesInRoom_apply hbuffer hop
  · intro op
    refine ⟨apply_eq_parts op buffer, ?_⟩
    intro earlier part later hparts
    have hearlier : Buffer.Doubled first (applyAll buffer earlier) :=
      (doubled_applyAll_of_grows (fun op _ => grows op) hbuffer).1
    have hmem : part ∈ op.parts := hparts ▸ List.mem_append_right _ List.mem_cons_self
    refine (reserves_of_mem_parts hmem).imp_right ?_
    rintro ⟨reserved, hreserved⟩
    refine ⟨reserved, hreserved, ?_⟩
    rw [applyAll_append]
    exact storesInRoom_apply hearlier hreserved

open WriteOp in
/-- Three bytes over three older ones leave room for one more, and the two that
come next double the capacity. -/
theorem buffer_history_doubles :
    let buffer := applyAll (.withCapacity 4) [raw #[9, 9, 9], reset, raw #[1, 2, 3]]
    buffer.bytes.toList = [1, 2, 3] ∧
      buffer.capacity = 4 ∧
      ((raw #[4, 5]).apply buffer).capacity = 8 ∧
      IsLeast {n ∈ Buffer.capacities 4 | 5 ≤ n} ((raw #[4, 5]).apply buffer).capacity := by
  intro buffer
  obtain ⟨hbytes, -, -, -, -, -, hstores, -⟩ :=
    buffer_history 4 [raw #[9, 9, 9], reset, raw #[1, 2, 3]]
  have hcapacity : buffer.capacity = 4 := by decide +kernel
  have hdoubled : ((raw #[4, 5]).apply buffer).capacity = 8 := by decide +kernel
  have hless : buffer.capacity < buffer.length + 2 := by
    rw [hcapacity]
    decide
  exact ⟨hbytes, hcapacity, hdoubled, (hstores (raw #[4, 5]) 2 rfl).grows hless⟩

end WireCodec
