import WireCodec.Proofs.Wire.Delimiting
import WireCodec.Proofs.Wire.Uniform

/-! # Complete occurrences

A key and the whole value that it announces, with varints of any length the
readers pass. What comes of such an occurrence does not depend on what follows
it, whether it is skipped, read as a value or refused.
-/

namespace WireCodec

/-- The bytes of a whole value of a wire type. -/
inductive ValueForm : WireType → List UInt8 → Prop
  | varint {groups : List UInt8} (hgroups : Varint.Terminated groups) : ValueForm .varint groups
  | fixed64 {bytes : List UInt8} (hlength : bytes.length = 8) : ValueForm .fixed64 bytes
  | payload {count bytes : List UInt8} (hcount : Varint.Terminated count)
      (hshort : count.length ≤ 10)
      (hlength : (UInt32.ofNat (Varint.value count)).toNat = bytes.length) :
      ValueForm .lengthDelimited (count ++ bytes)
  | fixed32 {bytes : List UInt8} (hlength : bytes.length = 4) : ValueForm .fixed32 bytes

/-- The bytes of a key with a number, and of the whole value that follows it. -/
inductive OccurrenceForm (number : UInt32) : List UInt8 → Prop
  | intro {wireType : WireType} {groups value : List UInt8} (hgroups : Varint.Terminated groups)
      (hshort : groups.length ≤ 10)
      (hkey : Key.ofWord (UInt32.ofNat (Varint.value groups)) = ⟨number, wireType.code⟩)
      (hnumber : number ≠ 0) (hvalue : ValueForm wireType value) :
      OccurrenceForm number (groups ++ value)

namespace Read

variable {α β : Type} {depth : Nat} {bytes : List UInt8}

theorem CollectsGroups.parses_long {W : Type} {groups : Nat → Nat → W → Read W}
    (h : CollectsGroups groups) (hbytes : Varint.Terminated bytes) {left done : Nat} {word : W}
    (hlength : left < bytes.length) :
    Parses (groups left done word) depth bytes (.error .malformedVarint) := by
  induction left generalizing bytes done word with
  | zero => exact h.zero done word ▸ parses_throw _ bytes
  | succ left ih =>
      cases hbytes with
      | last hlast => exact absurd hlength (by simp)
      | @more group rest hmore hrest =>
          obtain ⟨collect, hgroups⟩ := h.succ left done word
          rw [hgroups]
          refine (parses_byte group).bind ?_
          rw [if_pos hmore]
          exact ih hrest (Nat.lt_of_succ_lt_succ hlength)

/-- On these bytes a read has an outcome that does not depend on what follows. -/
def Determined (read : Read α) (depth : Nat) (bytes : List UInt8) : Prop :=
  ∃ outcome, Parses read depth bytes outcome

theorem determined_pure (a : α) : Determined (pure a) depth [] := ⟨_, parses_pure a⟩

theorem determined_throw (e : DecodeError) : Determined (throw e : Read α) depth bytes :=
  ⟨_, parses_throw e bytes⟩

theorem Determined.bind_nil {read : Read α} {next : α → Read β} (h : Determined read depth bytes)
    (hnext : ∀ a, Determined (next a) depth []) : Determined (read >>= next) depth bytes := by
  obtain ⟨outcome, hread⟩ := h
  cases outcome with
  | ok a =>
      obtain ⟨outcome, hnext⟩ := hnext a
      exact ⟨outcome, hread.bind_nil hnext⟩
  | error e => exact ⟨.error e, hread.bind_error⟩

theorem Determined.map {read : Read α} (h : Determined read depth bytes) (f : α → β) :
    Determined (f <$> read) depth bytes := by
  obtain ⟨outcome, hread⟩ := h
  exact ⟨_, hread.map f⟩

theorem Determined.expect {read : Read α} (found : Key) {expected : UInt8}
    (h : found.wireType = expected → Determined read depth bytes) :
    Determined (do Read.expect found expected; read) depth bytes := by
  unfold Read.expect
  by_cases hexpected : found.wireType = expected
  · simp only [hexpected, if_true]
    obtain ⟨outcome, hread⟩ := h hexpected
    exact ⟨outcome, (parses_pure ()).bind hread⟩
  · simp only [hexpected, if_false]
    exact ⟨_, (parses_throw _ bytes).bind_error⟩

theorem determined_varint32 (hbytes : Varint.Terminated bytes) :
    Determined varint32 depth bytes := by
  by_cases hlength : bytes.length ≤ 10
  · exact ⟨_, parses_varint32 depth hbytes hlength⟩
  · exact ⟨_, collectsGroups_varint32.parses_long hbytes (Nat.lt_of_not_le hlength)⟩

theorem determined_varint64 (hbytes : Varint.Terminated bytes) :
    Determined varint64 depth bytes := by
  by_cases hlength : bytes.length ≤ 10
  · exact ⟨_, parses_varint64 depth hbytes hlength⟩
  · exact ⟨_, collectsGroups_varint64.parses_long hbytes (Nat.lt_of_not_le hlength)⟩

theorem determined_take {count : Nat} (hlength : bytes.length = count) :
    Determined (take count) depth bytes :=
  ⟨_, parses_take depth hlength⟩

theorem determined_fixed {width : Nat} (hlength : bytes.length = width) :
    Determined (fixed width) depth bytes :=
  (determined_take hlength).bind_nil fun _ => determined_pure _

theorem parses_lengthPrefixed_of_count {count : List UInt8} (hcount : Varint.Terminated count)
    (hshort : count.length ≤ 10)
    (hlength : (UInt32.ofNat (Varint.value count)).toNat = bytes.length) :
    Parses lengthPrefixed depth (count ++ bytes) (.ok bytes.toArray) :=
  (parses_varint32 depth hcount hshort).bind (parses_take depth hlength.symm)

theorem determined_lengthPrefixed (h : ValueForm .lengthDelimited bytes) :
    Determined lengthPrefixed depth bytes := by
  cases h with
  | payload hcount hshort hlength =>
      exact ⟨_, parses_lengthPrefixed_of_count hcount hshort hlength⟩

/-- The payload of a whole value has one outcome, so the value has. -/
theorem determined_delimited {body : Read α} (hbody : Uniform body)
    (h : ValueForm .lengthDelimited bytes) : Determined (delimited body) depth bytes := by
  by_cases hdepth : depth < nestingLimit
  · cases h with
    | @payload count payload hcount hshort hlength =>
        obtain ⟨outcome, hfinishes⟩ := (hbody (depth + 1) payload).finishes
        exact ⟨outcome, hfinishes.delimited_of_count hdepth
          (parses_varint32 depth hcount hshort) hlength⟩
  · exact ⟨_, parses_delimited_of_limit (Nat.le_of_not_lt hdepth) bytes⟩

theorem determined_scalar {type : ScalarType} (h : ValueForm type.wireType bytes) :
    Determined (scalar type) depth bytes := by
  cases type with
  | string =>
      refine (determined_lengthPrefixed h).bind_nil ?_
      intro payload
      split
      · exact determined_pure _
      · exact determined_throw _
  | bytes => exact determined_lengthPrefixed h
  | uint32 =>
      cases h with
      | varint hgroups => exact determined_varint32 hgroups
  | sint32 =>
      cases h with
      | varint hgroups => exact (determined_varint32 hgroups).bind_nil fun _ => determined_pure _
  | uint64 =>
      cases h with
      | varint hgroups => exact determined_varint64 hgroups
  | int32 | int64 | sint64 | bool =>
      cases h with
      | varint hgroups => exact (determined_varint64 hgroups).bind_nil fun _ => determined_pure _
  | float | fixed32 | sfixed32 =>
      cases h with
      | fixed32 hlength => exact (determined_fixed hlength).bind_nil fun _ => determined_pure _
  | double | fixed64 | sfixed64 =>
      cases h with
      | fixed64 hlength => exact (determined_fixed hlength).bind_nil fun _ => determined_pure _

/-- A whole value is passed over, whatever its bytes are. -/
theorem parses_skip {wireType : WireType} (h : ValueForm wireType bytes) :
    Parses (skip wireType.code) depth bytes (.ok ()) := by
  cases h with
  | varint hgroups => exact parses_skipVarint hgroups
  | fixed64 hlength => exact (parses_take depth hlength).map _
  | payload hcount hshort hlength =>
      exact (parses_lengthPrefixed_of_count hcount hshort hlength).map _
  | fixed32 hlength => exact (parses_take depth hlength).map _

end Read

end WireCodec
