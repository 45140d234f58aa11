import WireCodec.Proofs.Wire.Parses

/-! # How reads fail

A property of the errors that a read fails with, wherever and whenever it
fails. Reads of the wire format find fault with the bytes only.
-/

namespace WireCodec

/-- Errors that say something about bytes, by whatever plan these are read. -/
inductive DecodeError.OfBytes : DecodeError → Prop
  | unexpectedEof : OfBytes .unexpectedEof
  | malformedVarint : OfBytes .malformedVarint
  | invalidUtf8 : OfBytes .invalidUtf8
  | unimplementedWireType (wireType : UInt8) : OfBytes (.unimplementedWireType wireType)
  | unexpectedWireType (field : UInt32) (wireType : UInt8) :
      OfBytes (.unexpectedWireType field wireType)
  | nestingTooDeep : OfBytes .nestingTooDeep

namespace Read

variable {α β σ : Type} {P : DecodeError → Prop}

/-- Whenever a read fails, the error has this property. -/
def Fails (read : Read α) (P : DecodeError → Prop) : Prop :=
  ∀ input before e after, read input before = .error e after → P e

theorem fails_pure (a : α) : Fails (pure a) P := by
  intro input before e after h
  cases h

theorem fails_throw {e : DecodeError} (h : P e) : Fails (throw e : Read α) P := by
  intro input before e after hrun
  cases hrun
  exact h

theorem Fails.bind {read : Read α} {next : α → Read β} (hread : Fails read P)
    (hnext : ∀ a, Fails (next a) P) : Fails (read >>= next) P := by
  intro input before e after h
  cases hrun : read input before with
  | ok a middle =>
      rw [bind_of_ok hrun] at h
      exact hnext a _ _ _ _ h
  | error e' middle =>
      rw [bind_of_error hrun] at h
      cases h
      exact hread _ _ _ _ hrun

theorem Fails.map {read : Read α} (h : Fails read P) (f : α → β) : Fails (f <$> read) P := by
  rw [← bind_pure_comp]
  exact h.bind fun a => fails_pure (f a)

theorem Fails.deeper {body : Read α} (h : Fails body P) : Fails (deeper body) P := by
  intro input before e after hrun
  unfold Read.deeper at hrun
  split at hrun
  next => cases hrun
  next hbody =>
    cases hrun
    exact h _ _ _ _ hbody

/-- What holds of the errors of every step holds of the errors of the loop. -/
theorem Fails.iterate {step : σ → Read (Option σ)} {advances : ∀ s, Advances (step s)}
    (hstep : ∀ s, Fails (step s) P) (s : σ) : Fails (iterate step advances s) P := by
  intro input before e after h
  induction s, before using iterate.induct step advances input with
  | case1 s before e' middle hfound =>
      rw [iterate_of_error hfound] at h
      cases h
      exact hstep _ _ _ _ _ hfound
  | case2 s before middle hfound =>
      rw [iterate_of_none hfound] at h
      cases h
  | case3 s before next middle hfound ih =>
      rw [iterate_of_some hfound] at h
      exact ih h

/-! ## Reads of the wire format -/

variable (hbytes : ∀ e, DecodeError.OfBytes e → P e)
include hbytes

theorem fails_take (count : Nat) : Fails (take count) P := by
  intro input before e after h
  unfold take at h
  split at h
  · cases h
    exact hbytes _ .unexpectedEof
  · cases h

theorem fails_byte : Fails byte P := by
  intro input before e after h
  unfold byte at h
  split at h
  · cases h
  · cases h
    exact hbytes _ .unexpectedEof

theorem Fails.withLimit {body : Read α} (h : Fails body P) (length : Nat) :
    Fails (withLimit length body) P := by
  intro input before e after hrun
  unfold Read.withLimit at hrun
  split at hrun
  next =>
    cases hrun
    exact hbytes _ .unexpectedEof
  next =>
    split at hrun
    next => cases hrun
    next hbody =>
      cases hrun
      exact h _ _ _ _ hbody

theorem fails_varint32 : Fails varint32 P :=
  varint32_induction (motive := fun read => Fails read P)
    (fails_throw (hbytes _ .malformedVarint)) fails_pure fun _ h => (fails_byte hbytes).bind h

theorem fails_varint64 : Fails varint64 P :=
  varint64_induction (motive := fun read => Fails read P)
    (fails_throw (hbytes _ .malformedVarint)) fails_pure fun _ h => (fails_byte hbytes).bind h

omit hbytes in
theorem fails_atEnd : Fails atEnd P := by
  intro input before e after h
  cases h

theorem fails_key : Fails key P := by
  refine fails_atEnd.bind fun ended => ?_
  split
  · exact fails_pure _
  · exact (fails_varint32 hbytes).bind fun _ => fails_pure _

theorem fails_payloadLength : Fails payloadLength P := by
  intro input before e after h
  unfold payloadLength at h
  split at h
  · cases h
    exact hbytes _ .nestingTooDeep
  · exact (fails_varint32 hbytes).map UInt32.toNat _ _ _ _ h

theorem Fails.delimited {body : Read α} (h : Fails body P) : Fails (delimited body) P :=
  (fails_payloadLength hbytes).bind fun length => (h.withLimit hbytes length).deeper

theorem fails_lengthPrefixed : Fails lengthPrefixed P :=
  (fails_varint32 hbytes).bind fun _ => fails_take hbytes _

theorem fails_fixed (width : Nat) : Fails (fixed width) P :=
  (fails_take hbytes width).bind fun _ => fails_pure _

theorem fails_scalar (type : ScalarType) : Fails (scalar type) P := by
  cases type with
  | string =>
      refine (fails_lengthPrefixed hbytes).bind fun payload => ?_
      split
      · exact fails_pure _
      · exact fails_throw (hbytes _ .invalidUtf8)
  | bytes => exact fails_lengthPrefixed hbytes
  | uint32 => exact fails_varint32 hbytes
  | uint64 => exact fails_varint64 hbytes
  | int32 | int64 | sint64 | bool => exact (fails_varint64 hbytes).bind fun _ => fails_pure _
  | sint32 => exact (fails_varint32 hbytes).bind fun _ => fails_pure _
  | double | float | fixed32 | fixed64 | sfixed32 | sfixed64 =>
      exact (fails_fixed hbytes _).bind fun _ => fails_pure _

theorem fails_skip (wireType : UInt8) : Fails (skip wireType) P := by
  have hgroup : Fails varintByte P := (fails_byte hbytes).bind fun _ => fails_pure _
  unfold skip
  repeat' split
  · exact Fails.iterate (fun _ => hgroup) ()
  · exact (fails_take hbytes _).map _
  · exact (fails_lengthPrefixed hbytes).map _
  · exact (fails_take hbytes _).map _
  · exact fails_throw (hbytes _ (.unimplementedWireType _))

theorem fails_expect (found : Key) (expected : UInt8) : Fails (expect found expected) P := by
  unfold expect
  split
  · exact fails_pure _
  · exact fails_throw (hbytes _ (.unexpectedWireType _ _))

theorem fails_packable {element : σ → Read σ} {consumes : ∀ s, Consumes (element s)}
    (h : ∀ s, Fails (element s) P) (found : Key) (natural : UInt8) (s : σ) :
    Fails (packable found natural element consumes s) P := by
  have hrun : Fails (run element consumes s) P := by
    refine Fails.iterate (fun s => fails_atEnd.bind fun ended => ?_) s
    split
    · exact fails_pure _
    · exact (h s).map some
  unfold packable
  split
  · exact hrun.delimited hbytes
  · exact (fails_expect hbytes _ _).bind fun _ => h s

end Read

end WireCodec
