import WireCodec.Proofs.Wire.Uniform

/-! # Reads that see what they pass

What a local read answers depends on the bytes that it passes and on the
depth, so it answers the same wherever these bytes stand and whatever follows
them. Reads that ask for the limit are not local, but they are once the limit
is the end of a payload that is passed as a whole.
-/

namespace WireCodec.Read

variable {α β σ : Type} {depth : Nat} {bytes rest : List UInt8} {input : Bytes}
  {before after : Cursor} {a : α}

/-- Whatever a read answers, it answers for a number of bytes at the cursor alone. -/
def Local (read : Read α) : Prop :=
  ∀ input before a after, before.Inside input → read input before = .ok a after →
    ∃ bytes rest, before.view input = bytes ++ rest ∧ Parses read before.depth bytes (.ok a)

/-- An outcome is the one that is observed somewhere. -/
theorem Parses.of_run {read : Read α} {outcome : Except DecodeError α}
    (h : Parses read before.depth bytes outcome) (hinside : before.Inside input)
    (hview : before.view input = bytes ++ rest) (hrun : read input before = .ok a after) :
    Parses read before.depth bytes (.ok a) := by
  cases outcome with
  | ok b =>
      have hrun' := h input before rest hinside rfl hview
      rw [hrun] at hrun'
      cases hrun'
      exact h
  | error e =>
      obtain ⟨after', hrun'⟩ := h input before rest hinside rfl hview
      rw [hrun] at hrun'
      cases hrun'

theorem local_pure (a : α) : Local (pure a) := by
  intro input before b after _ hrun
  cases hrun
  exact ⟨[], before.view input, rfl, parses_pure a⟩

theorem local_throw (e : DecodeError) : Local (throw e : Read α) := by
  intro input before a after _ hrun
  cases hrun

theorem Local.bind {read : Read α} {next : α → Read β} (hread : Local read)
    (hnext : ∀ a, Local (next a)) : Local (read >>= next) := by
  intro input before b after hinside hrun
  obtain ⟨a, middle, hfirst, hsecond⟩ := bind_eq_ok.mp hrun
  obtain ⟨bytes, rest, hview, hparses⟩ := hread _ _ _ _ hinside hfirst
  have hmiddle := hparses input before rest hinside rfl hview
  rw [hfirst] at hmiddle
  cases hmiddle
  obtain ⟨bytes', rest', hview', hparses'⟩ := hnext a _ _ _ _ (hinside.forward hview) hsecond
  refine ⟨bytes ++ bytes', rest', ?_, hparses.bind hparses'⟩
  rw [hview, ← Cursor.view_forward hview, hview', List.append_assoc]

theorem Local.map {read : Read α} (h : Local read) (f : α → β) : Local (f <$> read) := by
  rw [← bind_pure_comp]
  exact h.bind fun a => local_pure (f a)

theorem local_byte : Local byte := by
  intro input before b after hinside hrun
  obtain ⟨hlimit, _⟩ := byte_eq_ok hrun
  cases hview : before.view input with
  | nil =>
      have hlength := hinside.length_view
      rw [hview, List.length_nil, Cursor.remaining] at hlength
      omega
  | cons first rest => exact ⟨[first], rest, rfl, (parses_byte first).of_run hinside hview hrun⟩

theorem local_take (count : Nat) : Local (take count) := by
  intro input before taken after hinside hrun
  have hcount : count ≤ (before.view input).length := by
    rw [hinside.length_view]
    unfold take at hrun
    split at hrun
    · cases hrun
    · omega
  have hsplit := (List.take_append_drop count (before.view input)).symm
  exact ⟨_, _, hsplit,
    (parses_take before.depth (List.length_take_of_le hcount)).of_run hinside hsplit hrun⟩

/-- A payload is passed as a whole, so its body may ask for the limit. -/
theorem local_withLimit {body : Read α} (hbody : Uniform body) (length : Nat) :
    Local (withLimit length body) := by
  intro input before a after hinside hrun
  have hlength : length ≤ (before.view input).length := by
    rw [hinside.length_view]
    unfold withLimit enter? at hrun
    split at hrun
    next => cases hrun
    next hinner =>
      split at hinner
      · cases hinner
      · omega
  have hsplit := (List.take_append_drop length (before.view input)).symm
  obtain ⟨outcome, hfinishes⟩ :=
    (hbody before.depth ((before.view input).take length)).finishes
  have hparses := hfinishes.withLimit
  rw [List.length_take_of_le hlength] at hparses
  exact ⟨_, _, hsplit, hparses.of_run hinside hsplit hrun⟩

theorem Local.deeper {body : Read α} (h : Local body) : Local (deeper body) := by
  intro input before a after hinside hrun
  unfold Read.deeper at hrun
  split at hrun
  next hbody =>
    cases hrun
    have hinside' : Cursor.Inside input { before with depth := before.depth + 1 } :=
      ⟨hinside.offset_le, hinside.limit_le⟩
    obtain ⟨bytes, rest, hview, hparses⟩ := h _ _ _ _ hinside' hbody
    exact ⟨bytes, rest, hview, hparses.deeper⟩
  next => cases hrun

section Loops

variable {step : σ → Read (Option σ)} {advances : ∀ s, Advances (step s)}

theorem Local.iterate (hstep : ∀ s, Local (step s)) (s : σ) : Local (iterate step advances s) := by
  intro input before a after hinside hrun
  induction hrun using iterate_ok_induction with
  | stop before hfound =>
      obtain ⟨bytes, rest, hview, hparses⟩ := hstep _ _ _ _ _ hinside hfound
      exact ⟨bytes, rest, hview, parses_iterate_none hparses⟩
  | next s before next middle hfound _ ih =>
      obtain ⟨bytes, rest, hview, hparses⟩ := hstep s _ _ _ _ hinside hfound
      have hmiddle := hparses input before rest hinside rfl hview
      rw [hfound] at hmiddle
      cases hmiddle
      obtain ⟨bytes', rest', hview', hparses'⟩ := ih (hinside.forward hview)
      refine ⟨bytes ++ bytes', rest', ?_, hparses.iterate_some hparses'⟩
      rw [hview, ← Cursor.view_forward hview, hview', List.append_assoc]

end Loops

/-! ## Reads of the wire format -/

theorem local_varint32 : Local varint32 :=
  varint32_induction (local_throw _) local_pure fun _ h => local_byte.bind h

theorem local_varint64 : Local varint64 :=
  varint64_induction (local_throw _) local_pure fun _ h => local_byte.bind h

/-- A key that is found is read from its own bytes. At the limit there is none. -/
theorem parses_key_of_run {found : Key} (hinside : before.Inside input)
    (hrun : key input before = .ok (some found) after) :
    ∃ groups rest, before.view input = groups ++ rest ∧
      Parses key before.depth groups (.ok (some found)) := by
  obtain ⟨ended, middle, hend, hrun⟩ := bind_eq_ok.mp hrun
  cases hend
  cases hatEnd : before.atEnd with
  | true =>
      rw [hatEnd] at hrun
      cases hrun
  | false =>
      rw [hatEnd] at hrun
      have hlocal := local_varint32.bind fun word =>
        local_pure (if (Key.ofWord word).number = 0 then none else some (Key.ofWord word))
      obtain ⟨groups, rest, hview, hparses⟩ := hlocal _ _ _ _ hinside hrun
      refine ⟨groups, rest, hview, hparses.ifEnd ?_⟩
      rintro rfl
      -- a word takes at least one byte
      have hnothing := hparses input before rest hinside rfl hview
      have hconsumes := (consumes_varint32.bind fun word =>
        steady_pure (if (Key.ofWord word).number = 0 then none else some (Key.ofWord word)))
          _ _ _ _ hnothing
      exact absurd hconsumes.2.2 (Nat.lt_irrefl _)

theorem local_payloadLength : Local payloadLength := by
  intro input before count after hinside hrun
  unfold payloadLength at hrun
  split at hrun
  · cases hrun
  next hdepth =>
    obtain ⟨word, hword, rfl⟩ := map_eq_ok.mp hrun
    obtain ⟨bytes, rest, hview, hparses⟩ := local_varint32 _ _ _ _ hinside hword
    exact ⟨bytes, rest, hview, parses_payloadLength (Nat.lt_of_not_le hdepth) hparses⟩

theorem local_delimited {body : Read α} (hbody : Uniform body) : Local (delimited body) :=
  local_payloadLength.bind fun length => (local_withLimit hbody length).deeper

theorem local_lengthPrefixed : Local lengthPrefixed :=
  local_varint32.bind fun _ => local_take _

theorem local_fixed (width : Nat) : Local (fixed width) :=
  (local_take width).bind fun _ => local_pure _

theorem local_scalar (type : ScalarType) : Local (scalar type) := by
  cases type with
  | string =>
      refine local_lengthPrefixed.bind fun payload => ?_
      split
      · exact local_pure _
      · exact local_throw _
  | bytes => exact local_lengthPrefixed
  | uint32 => exact local_varint32
  | uint64 => exact local_varint64
  | int32 | int64 | sint64 | bool => exact local_varint64.bind fun _ => local_pure _
  | sint32 => exact local_varint32.bind fun _ => local_pure _
  | double | float | fixed32 | fixed64 | sfixed32 | sfixed64 =>
      exact (local_fixed _).bind fun _ => local_pure _

theorem local_skip (wireType : UInt8) : Local (skip wireType) := by
  have hgroup : Local varintByte := local_byte.bind fun _ => local_pure _
  unfold skip
  repeat' split
  · exact Local.iterate (fun _ => hgroup) ()
  · exact (local_take _).map _
  · exact local_lengthPrefixed.map _
  · exact (local_take _).map _
  · exact local_throw _

theorem local_expect (found : Key) (expected : UInt8) : Local (expect found expected) := by
  unfold expect
  split
  · exact local_pure _
  · exact local_throw _

theorem local_packable {element : σ → Read σ} {consumes : ∀ s, Consumes (element s)}
    (huniform : ∀ s, Uniform (element s)) (hlocal : ∀ s, Local (element s)) (found : Key)
    (natural : UInt8) (s : σ) : Local (packable found natural element consumes s) := by
  unfold packable
  split
  · exact local_delimited (uniform_run huniform s)
  · exact (local_expect _ _).bind fun _ => hlocal s

end WireCodec.Read
