import WireCodec.Proofs.Wire.Local
import WireCodec.Proofs.Wire.VarintReaders

/-! # Reads of bytes that are cut off

A read that has a value needs all the bytes that it passes. With the limit
anywhere before the last of them it runs out of bytes, before it can find
anything else to complain about.
-/

namespace WireCodec

theorem Cursor.view_lower (input : Bytes) {cursor : Cursor} {limit : Nat}
    (h : limit ≤ cursor.limit) :
    view input { cursor with limit := limit } =
      (cursor.view input).take (limit - cursor.offset) := by
  simp only [view]
  rw [← List.drop_take, List.take_take, Nat.min_eq_left h]

namespace Read

variable {α β σ : Type} {input : Bytes} {before after : Cursor} {a : α} {limit : Nat}

/-- What a local read passes lies before the limit. -/
theorem Local.exists_forward {read : Read α} (h : Local read) (hinside : before.Inside input)
    (hrun : read input before = .ok a after) :
    ∃ count, after = before.forward count ∧ after.Inside input := by
  obtain ⟨bytes, rest, hview, hparses⟩ := h _ _ _ _ hinside hrun
  have hafter := hparses input before rest hinside rfl hview
  rw [hrun] at hafter
  cases hafter
  exact ⟨bytes.length, rfl, hinside.forward hview⟩

/-- A local read does the same with a lower limit, if that is not before the
end of what it passes. -/
theorem Local.lower {read : Read α} (h : Local read) (hinside : before.Inside input)
    (hrun : read input before = .ok a after) (hlow : after.offset ≤ limit)
    (hhigh : limit ≤ before.limit) :
    read input { before with limit := limit } = .ok a { after with limit := limit } := by
  obtain ⟨bytes, rest, hview, hparses⟩ := h _ _ _ _ hinside hrun
  have hafter := hparses input before rest hinside rfl hview
  rw [hrun] at hafter
  cases hafter
  simp only [Cursor.forward] at hlow
  have hlower : Cursor.view input { before with limit := limit } =
      bytes ++ rest.take (limit - before.offset - bytes.length) := by
    rw [Cursor.view_lower input hhigh, hview, List.take_append, List.take_of_length_le (by omega)]
  exact hparses input _ _ ⟨by simp only; omega, Nat.le_trans hhigh hinside.limit_le⟩ rfl hlower

/-- With a limit before the end of what it passes, a read that had a value ends
for want of bytes. -/
def Exacting (read : Read α) : Prop :=
  ∀ input before a after limit, before.Inside input → read input before = .ok a after →
    before.offset ≤ limit → limit < after.offset → limit ≤ before.limit →
    ∃ stop, read input { before with limit := limit } = .error .unexpectedEof stop

theorem exacting_pure (a : α) : Exacting (pure a) := by
  intro input before b after limit _ hrun hlow hhigh
  cases hrun
  omega

theorem exacting_throw (e : DecodeError) : Exacting (throw e : Read α) := by
  intro input before a after limit _ hrun
  cases hrun

theorem Exacting.bind {read : Read α} {next : α → Read β} (hread : Exacting read)
    (hlocal : Local read) (hnext : ∀ a, Exacting (next a)) : Exacting (read >>= next) := by
  intro input before b after limit hinside hrun hlow hhigh hlimit
  obtain ⟨a, middle, hfirst, hsecond⟩ := bind_eq_ok.mp hrun
  rcases Nat.lt_or_ge limit middle.offset with hcut | hpassed
  · obtain ⟨stop, hstop⟩ := hread _ _ _ _ _ hinside hfirst hlow hcut hlimit
    exact ⟨stop, bind_of_error hstop⟩
  · have hfirst' := hlocal.lower hinside hfirst hpassed hlimit
    obtain ⟨count, rfl, hmiddle⟩ := hlocal.exists_forward hinside hfirst
    obtain ⟨stop, hstop⟩ := hnext a _ _ _ _ _ hmiddle hsecond hpassed hhigh hlimit
    exact ⟨stop, (bind_of_ok hfirst').trans hstop⟩

theorem Exacting.map {read : Read α} (h : Exacting read) (f : α → β) : Exacting (f <$> read) := by
  intro input before b after limit hinside hrun hlow hhigh hlimit
  obtain ⟨a, hfirst, -⟩ := map_eq_ok.mp hrun
  obtain ⟨stop, hstop⟩ := h _ _ _ _ _ hinside hfirst hlow hhigh hlimit
  exact ⟨stop, map_of_error hstop⟩

theorem exacting_byte : Exacting byte := by
  intro input before b after limit _ hrun hlow hhigh _
  obtain ⟨-, rfl⟩ := byte_eq_ok hrun
  refine ⟨_, dif_neg ?_⟩
  simp only at hhigh ⊢
  omega

theorem exacting_take (count : Nat) : Exacting (take count) := by
  intro input before taken after limit _ hrun hlow hhigh _
  unfold take at hrun ⊢
  split at hrun
  next => cases hrun
  next =>
    cases hrun
    refine ⟨_, if_pos ?_⟩
    simp only [Cursor.remaining] at hhigh ⊢
    omega

/-- A payload that is cut off is not entered, whatever reads it. -/
theorem exacting_withLimit (length : Nat) (body : Read α) : Exacting (withLimit length body) := by
  intro input before a after limit _ hrun hlow hhigh _
  unfold withLimit at hrun ⊢
  have henter : enter? length { before with limit := limit } = none := by
    split at hrun
    next => cases hrun
    next inner hinner =>
      obtain ⟨-, rfl⟩ := enter?_eq_some hinner
      split at hrun
      next =>
        cases hrun
        refine if_pos ?_
        simp only [Cursor.remaining] at hhigh ⊢
        omega
      next => cases hrun
  rw [henter]
  exact ⟨_, rfl⟩

theorem Exacting.deeper {body : Read α} (h : Exacting body) : Exacting (deeper body) := by
  intro input before a after limit hinside hrun hlow hhigh hlimit
  unfold Read.deeper at hrun ⊢
  split at hrun
  next hbody =>
    cases hrun
    obtain ⟨stop, hstop⟩ := h input { before with depth := before.depth + 1 } _ _ limit
      ⟨hinside.offset_le, hinside.limit_le⟩ hbody hlow hhigh hlimit
    rw [hstop]
    exact ⟨_, rfl⟩
  next => cases hrun

theorem Exacting.iterate {step : σ → Read (Option σ)} {advances : ∀ s, Advances (step s)}
    (hstep : ∀ s, Exacting (step s)) (hlocal : ∀ s, Local (step s)) (s : σ) :
    Exacting (iterate step advances s) := by
  intro input before a after limit hinside hrun hlow hhigh hlimit
  induction hrun using iterate_ok_induction with
  | stop before hfound =>
      obtain ⟨stop, hstop⟩ := hstep _ _ _ _ _ _ hinside hfound hlow hhigh hlimit
      exact ⟨stop, iterate_of_error hstop⟩
  | next s before next middle hfound _ ih =>
      rcases Nat.lt_or_ge limit middle.offset with hcut | hpassed
      · obtain ⟨stop, hstop⟩ := hstep s _ _ _ _ _ hinside hfound hlow hcut hlimit
        exact ⟨stop, iterate_of_error hstop⟩
      · have hfound' := (hlocal s).lower hinside hfound hpassed hlimit
        obtain ⟨count, rfl, hmiddle⟩ := (hlocal s).exists_forward hinside hfound
        obtain ⟨stop, hstop⟩ := ih hmiddle hpassed hlimit
        exact ⟨stop, (iterate_of_some hfound').trans hstop⟩

/-! ## Reads of the wire format -/

theorem exacting_varint32 : Exacting varint32 :=
  varint32_induction (exacting_throw _) exacting_pure fun _ h => exacting_byte.bind local_byte h

theorem exacting_varint64 : Exacting varint64 :=
  varint64_induction (exacting_throw _) exacting_pure fun _ h => exacting_byte.bind local_byte h

theorem exacting_payloadLength : Exacting payloadLength := by
  intro input before count after limit hinside hrun hlow hhigh hlimit
  unfold payloadLength at hrun ⊢
  split at hrun
  next => cases hrun
  next hdepth =>
    rw [if_neg hdepth]
    exact exacting_varint32.map UInt32.toNat _ _ _ _ _ hinside hrun hlow hhigh hlimit

theorem exacting_delimited (body : Read α) : Exacting (delimited body) :=
  exacting_payloadLength.bind local_payloadLength fun length =>
    (exacting_withLimit length body).deeper

theorem exacting_lengthPrefixed : Exacting lengthPrefixed :=
  exacting_varint32.bind local_varint32 fun _ => exacting_take _

theorem exacting_fixed (width : Nat) : Exacting (fixed width) :=
  (exacting_take width).map _

theorem exacting_scalar (type : ScalarType) : Exacting (scalar type) := by
  cases type with
  | string =>
      refine exacting_lengthPrefixed.bind local_lengthPrefixed fun payload => ?_
      split
      · exact exacting_pure _
      · exact exacting_throw _
  | bytes => exact exacting_lengthPrefixed
  | uint32 => exact exacting_varint32
  | uint64 => exact exacting_varint64
  | int32 | int64 | sint64 | bool => exact exacting_varint64.map _
  | sint32 => exact exacting_varint32.map _
  | double | float | fixed32 | fixed64 | sfixed32 | sfixed64 => exact (exacting_fixed _).map _

theorem exacting_skip (wireType : UInt8) : Exacting (skip wireType) := by
  have hgroup : Exacting varintByte := exacting_byte.map _
  have hlocal : Local varintByte := local_byte.map _
  unfold skip
  repeat' split
  · exact Exacting.iterate (fun _ => hgroup) (fun _ => hlocal) ()
  · exact (exacting_take _).map _
  · exact exacting_lengthPrefixed.map _
  · exact (exacting_take _).map _
  · exact exacting_throw _

theorem exacting_expect (found : Key) (expected : UInt8) : Exacting (expect found expected) := by
  unfold expect
  split
  · exact exacting_pure _
  · exact exacting_throw _

theorem exacting_packable {element : σ → Read σ} {consumes : ∀ s, Consumes (element s)}
    (helement : ∀ s, Exacting (element s)) (found : Key) (natural : UInt8) (s : σ) :
    Exacting (packable found natural element consumes s) := by
  unfold packable
  split
  · exact exacting_delimited _
  · exact (exacting_expect _ _).bind (local_expect _ _) fun _ => helement s

/-- What comes of some bytes with the limit at their end comes of them wherever
the limit is their end. -/
theorem Uniform.finishes_error {read : Read α} (h : Uniform read) {depth : Nat}
    {bytes more : List UInt8} {e : DecodeError} {stop : Cursor}
    (hrun : read (bytes ++ more).toArray ⟨0, bytes.length, depth⟩ = .error e stop) :
    Finishes read depth bytes (.error e) := by
  have hinside : Cursor.Inside (bytes ++ more).toArray ⟨0, bytes.length, depth⟩ :=
    ⟨Nat.zero_le _, by simp⟩
  have hview : Cursor.view (bytes ++ more).toArray ⟨0, bytes.length, depth⟩ = bytes := by
    simp [Cursor.view]
  obtain ⟨outcome, hfinishes⟩ := (h depth bytes).finishes
  cases outcome with
  | ok a =>
      obtain ⟨after, hrun', -⟩ := hfinishes _ _ hinside rfl hview
      rw [hrun] at hrun'
      cases hrun'
  | error e' =>
      obtain ⟨after, hrun'⟩ := hfinishes _ _ hinside rfl hview
      rw [hrun] at hrun'
      cases hrun'
      exact hfinishes

/-- Before the limit, a key is the word that is read. -/
theorem key_bind_of_lt (h : before.offset < before.limit) (next : Option Key → Read α) :
    (key >>= next) input before = ((keyOfWord <$> varint32) >>= next) input before := by
  have hend : before.atEnd = false := decide_eq_false (Nat.not_le.mpr h)
  have hrun : atEnd input before = .ok false before := by
    rw [← hend]
    rfl
  have hkey : key input before = (keyOfWord <$> varint32) input before := by
    rw [key, bind_of_ok hrun]
    rfl
  simp only [bind, ReaderT.bind, EStateM.bind, hkey]

/-- A key and what follows it are not read if some of their bytes are there and
some are not. With none there the limit is reached, and that is no failure. -/
theorem finishes_key_bind_of_cut {next : Option Key → Read α}
    (hexacting : ∀ found, Exacting (next found)) (huniform : ∀ found, Uniform (next found))
    {depth : Nat} {cut more : List UInt8} {a : α}
    (h : Parses (key >>= next) depth (cut ++ more) (.ok a)) (hcut : cut ≠ []) (hmore : more ≠ []) :
    Finishes (key >>= next) depth cut (.error .unexpectedEof) := by
  have hlength := List.length_pos_iff.mpr hcut
  have hlength' := List.length_pos_iff.mpr hmore
  let input := (cut ++ more).toArray
  let cursor : Cursor := ⟨0, cut.length + more.length, depth⟩
  have hinside : cursor.Inside input := ⟨Nat.zero_le _, by simp [input, cursor]⟩
  have hview : cursor.view input = cut ++ more ++ [] := by simp [input, cursor, Cursor.view]
  have hrun := h input cursor [] hinside rfl hview
  rw [key_bind_of_lt (Nat.add_pos_left hlength _)] at hrun
  have hword : Exacting ((keyOfWord <$> varint32) >>= next) :=
    (exacting_varint32.map keyOfWord).bind (local_varint32.map keyOfWord) hexacting
  have hpassed : cut.length < (cursor.forward (cut ++ more).length).offset := by
    simp only [Cursor.forward, cursor, List.length_append]
    omega
  obtain ⟨stop, hstop⟩ := hword _ _ _ _ cut.length hinside hrun (Nat.zero_le _) hpassed
    (Nat.le_add_right _ _)
  refine (uniform_key.bind huniform).finishes_error ((key_bind_of_lt ?_ next).trans hstop)
  exact hlength

end Read

end WireCodec
