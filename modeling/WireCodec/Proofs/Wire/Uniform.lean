import WireCodec.Proofs.Wire.Parses

/-! # Reads that see bytes only

All reads that decoding is made of are uniform: what comes of them, and where
they stop, depends on the bytes up to the limit and on the depth, not on where
the bytes stand. So every payload has one outcome, whatever message it is part
of. Limit and depth are in the end what they were, after a failure too.
-/

namespace WireCodec

namespace Cursor

variable {input : Bytes} {cursor : Cursor} {count : Nat}

theorem Inside.forward_of_le (h : cursor.Inside input) (hcount : count ≤ (cursor.view input).length) :
    (cursor.forward count).Inside input := by
  rw [h.length_view, remaining] at hcount
  have hoffset := h.offset_le
  refine ⟨?_, h.limit_le⟩
  simp only [Cursor.forward]
  omega

theorem view_forward_eq_drop (input : Bytes) (cursor : Cursor) (count : Nat) :
    (cursor.forward count).view input = (cursor.view input).drop count := by
  simp only [view, forward, List.drop_drop]

end Cursor

namespace Read

variable {α β σ : Type}

theorem enter?_eq_some {length : Nat} {cursor inner : Cursor}
    (h : enter? length cursor = some inner) :
    length ≤ cursor.remaining ∧ inner = { cursor with limit := cursor.offset + length } := by
  unfold enter? at h
  split at h
  · cases h
  next hlength => exact ⟨Nat.le_of_not_lt hlength, (Option.some.inj h).symm⟩

/-- On these bytes up to the limit, wherever they stand, a read has one outcome
after a number of bytes: a value, or an error. -/
inductive Settled (read : Read α) (depth : Nat) (bytes : List UInt8) : Prop
  | ok (a : α) (count : Nat) (hcount : count ≤ bytes.length)
      (h : ∀ (input : Bytes) (cursor : Cursor), cursor.Inside input → cursor.depth = depth →
        cursor.view input = bytes → read input cursor = .ok a (cursor.forward count))
  | error (e : DecodeError) (count : Nat) (hcount : count ≤ bytes.length)
      (h : ∀ (input : Bytes) (cursor : Cursor), cursor.Inside input → cursor.depth = depth →
        cursor.view input = bytes → read input cursor = .error e (cursor.forward count))

/-- What comes of a read depends on the bytes up to the limit and the depth alone. -/
def Uniform (read : Read α) : Prop :=
  ∀ depth bytes, Settled read depth bytes

theorem Settled.finishes {read : Read α} {depth : Nat} {bytes : List UInt8}
    (h : Settled read depth bytes) : ∃ outcome, Finishes read depth bytes outcome := by
  cases h with
  | ok a count hcount h =>
      refine ⟨.ok a, ?_⟩
      intro input cursor hinside hdepth hview
      exact ⟨_, h input cursor hinside hdepth hview, hdepth⟩
  | error e count hcount h =>
      refine ⟨.error e, ?_⟩
      intro input cursor hinside hdepth hview
      exact ⟨_, h input cursor hinside hdepth hview⟩

theorem Parses.settled {read : Read α} {depth : Nat} {bytes : List UInt8} {a : α}
    (h : Parses read depth bytes (.ok a)) (rest : List UInt8) :
    Settled read depth (bytes ++ rest) := by
  refine .ok a bytes.length (List.length_append ▸ Nat.le_add_right _ _) ?_
  intro input cursor hinside hdepth hview
  exact h input cursor rest hinside hdepth hview

theorem uniform_pure (a : α) : Uniform (pure a) := fun _ bytes =>
  (parses_pure a).settled bytes

theorem uniform_throw (e : DecodeError) : Uniform (throw e : Read α) := fun _ _ =>
  .error e 0 (Nat.zero_le _) fun _ _ _ _ _ => rfl

/-- A read that goes on as another one, some bytes further. -/
theorem Settled.advance {read next : Read α} {depth : Nat} {bytes : List UInt8} {count : Nat}
    (hcount : count ≤ bytes.length) (hnext : Settled next depth (bytes.drop count))
    (h : ∀ (input : Bytes) (cursor : Cursor), cursor.Inside input → cursor.depth = depth →
      cursor.view input = bytes → read input cursor = next input (cursor.forward count)) :
    Settled read depth bytes := by
  have hforward : ∀ {input : Bytes} {cursor : Cursor}, cursor.Inside input →
      cursor.view input = bytes → (cursor.forward count).Inside input ∧
        (cursor.forward count).view input = bytes.drop count := by
    rintro input cursor hinside rfl
    exact ⟨hinside.forward_of_le hcount, Cursor.view_forward_eq_drop input cursor count⟩
  cases hnext with
  | ok a more hmore hrest =>
      rw [List.length_drop] at hmore
      refine .ok a (count + more) (by omega) ?_
      intro input cursor hinside hdepth hview
      obtain ⟨hinside', hview'⟩ := hforward hinside hview
      rw [h input cursor hinside hdepth hview, hrest input _ hinside' hdepth hview',
        Cursor.forward_forward]
  | error e more hmore hrest =>
      rw [List.length_drop] at hmore
      refine .error e (count + more) (by omega) ?_
      intro input cursor hinside hdepth hview
      obtain ⟨hinside', hview'⟩ := hforward hinside hview
      rw [h input cursor hinside hdepth hview, hrest input _ hinside' hdepth hview',
        Cursor.forward_forward]

theorem Uniform.bind {read : Read α} {next : α → Read β} (hread : Uniform read)
    (hnext : ∀ a, Uniform (next a)) : Uniform (read >>= next) := by
  intro depth bytes
  cases hread depth bytes with
  | error e count hcount h =>
      refine .error e count hcount ?_
      intro input cursor hinside hdepth hview
      exact bind_of_error (h input cursor hinside hdepth hview)
  | ok a count hcount h =>
      refine .advance hcount (hnext a depth _) ?_
      intro input cursor hinside hdepth hview
      exact bind_of_ok (h input cursor hinside hdepth hview)

theorem Uniform.map {read : Read α} (h : Uniform read) (f : α → β) : Uniform (f <$> read) := by
  rw [← bind_pure_comp]
  exact h.bind fun a => uniform_pure (f a)

theorem uniform_atEnd : Uniform atEnd := by
  intro depth bytes
  refine .ok bytes.isEmpty 0 (Nat.zero_le _) ?_
  intro input cursor hinside hdepth hview
  rw [← hview, ← hinside.atEnd_eq]
  rfl

theorem uniform_byte : Uniform byte := by
  intro depth bytes
  cases bytes with
  | cons b rest => exact (parses_byte b).settled rest
  | nil =>
      refine .error .unexpectedEof 0 (Nat.zero_le _) ?_
      intro input cursor hinside hdepth hview
      have hlength := hinside.length_view
      rw [hview, List.length_nil, Cursor.remaining] at hlength
      unfold byte
      rw [dif_neg (by omega), Cursor.forward_zero]

theorem uniform_take (count : Nat) : Uniform (take count) := by
  intro depth bytes
  by_cases hcount : count ≤ bytes.length
  · have h := (parses_take depth (List.length_take_of_le hcount)).settled (bytes.drop count)
    rwa [List.take_append_drop] at h
  · refine .error .unexpectedEof 0 (Nat.zero_le _) ?_
    intro input cursor hinside hdepth hview
    have hlength := hinside.length_view
    rw [hview] at hlength
    unfold take
    rw [if_pos (by omega), Cursor.forward_zero]

theorem uniform_rest : Uniform rest := by
  intro depth bytes
  have htake := (parses_take depth (rfl : bytes.length = bytes.length)).settled []
  rw [List.append_nil] at htake
  refine .advance (Nat.zero_le _) htake ?_
  intro input cursor hinside hdepth hview
  rw [Cursor.forward_zero, ← hview, hinside.length_view]
  rfl

/-- A payload that is entered has the first bytes as its view. -/
theorem enter?_of_le {input : Bytes} {cursor : Cursor} {length : Nat}
    (hinside : cursor.Inside input) (hlength : length ≤ (cursor.view input).length) :
    ∃ inner, enter? length cursor = some inner ∧ inner.Inside input ∧
      inner.view input = (cursor.view input).take length := by
  obtain ⟨inner, henter, hin, -, -, hview⟩ :=
    hinside.enter (List.take_append_drop length (cursor.view input)).symm
  rw [List.length_take_of_le hlength] at henter
  exact ⟨inner, henter, hin, hview⟩

theorem Uniform.withLimit {body : Read α} (h : Uniform body) (length : Nat) :
    Uniform (withLimit length body) := by
  intro depth bytes
  by_cases hlength : length ≤ bytes.length
  · cases h depth (bytes.take length) with
    | ok a count hcount hbody =>
        refine .ok a length hlength ?_
        rintro input cursor hinside hdepth rfl
        obtain ⟨inner, henter, hin, hview⟩ := enter?_of_le hinside hlength
        obtain ⟨-, rfl⟩ := enter?_eq_some henter
        simp only [Read.withLimit, henter, hbody input _ hin hdepth hview, Cursor.forward]
    | error e count hcount hbody =>
        rw [List.length_take_of_le hlength] at hcount
        refine .error e count (Nat.le_trans hcount hlength) ?_
        rintro input cursor hinside hdepth rfl
        obtain ⟨inner, henter, hin, hview⟩ := enter?_of_le hinside hlength
        obtain ⟨-, rfl⟩ := enter?_eq_some henter
        simp only [Read.withLimit, henter, hbody input _ hin hdepth hview, Cursor.forward]
  · refine .error .unexpectedEof 0 (Nat.zero_le _) ?_
    intro input cursor hinside hdepth hview
    have hremaining := hinside.length_view
    rw [hview] at hremaining
    unfold Read.withLimit enter?
    rw [if_pos (by omega), Cursor.forward_zero]

theorem Uniform.deeper {body : Read α} (h : Uniform body) : Uniform (deeper body) := by
  have hinner : ∀ {input : Bytes} {cursor : Cursor}, cursor.Inside input →
      Cursor.Inside input { cursor with depth := cursor.depth + 1 } := fun hinside =>
    ⟨hinside.offset_le, hinside.limit_le⟩
  intro depth bytes
  cases h (depth + 1) bytes with
  | ok a count hcount h =>
      refine .ok a count hcount ?_
      intro input cursor hinside hdepth hview
      have hbody := h input _ (hinner hinside) (congrArg (· + 1) hdepth) hview
      simp only [Read.deeper, hbody, Cursor.forward, Nat.add_sub_cancel]
  | error e count hcount h =>
      refine .error e count hcount ?_
      intro input cursor hinside hdepth hview
      have hbody := h input _ (hinner hinside) (congrArg (· + 1) hdepth) hview
      simp only [Read.deeper, hbody, Cursor.forward, Nat.add_sub_cancel]

theorem Uniform.iterate {step : σ → Read (Option σ)} {advances : ∀ s, Advances (step s)}
    (h : ∀ s, Uniform (step s)) (s : σ) : Uniform (iterate step advances s) := by
  intro depth bytes
  -- each step that goes on takes bytes away, so the induction is on how many are left
  induction hlength : bytes.length using Nat.strongRecOn generalizing bytes s with
  | _ length ih =>
      cases h s depth bytes with
      | error e count hcount h =>
          refine .error e count hcount ?_
          intro input cursor hinside hdepth hview
          exact iterate_of_error (h input cursor hinside hdepth hview)
      | ok answer count hcount h =>
          cases answer with
          | none =>
              refine .ok s count hcount ?_
              intro input cursor hinside hdepth hview
              exact iterate_of_none (h input cursor hinside hdepth hview)
          | some next =>
              -- the step has been made somewhere, so it went forward
              have hforward : 0 < count := by
                let input : Bytes := bytes.toArray
                let cursor : Cursor := { Cursor.start input with depth := depth }
                have hrun := h input cursor ⟨Nat.zero_le _, Nat.le_refl _⟩ rfl
                  (Cursor.view_start input)
                have hadvance := advances s _ _ _ _ hrun
                simp only [Cursor.forward] at hadvance
                omega
              have hdrop : (bytes.drop count).length < length := by
                rw [List.length_drop]
                omega
              refine .advance hcount (ih _ hdrop next (bytes.drop count) rfl) ?_
              intro input cursor hinside hdepth hview
              exact iterate_of_some (h input cursor hinside hdepth hview)

/-! ## Reads of the wire format -/

theorem uniform_varint32 : Uniform varint32 :=
  varint32_induction (uniform_throw _) uniform_pure fun _ h => uniform_byte.bind h

theorem uniform_varint64 : Uniform varint64 :=
  varint64_induction (uniform_throw _) uniform_pure fun _ h => uniform_byte.bind h

theorem uniform_key : Uniform key := by
  refine uniform_atEnd.bind fun ended => ?_
  split
  · exact uniform_pure _
  · exact uniform_varint32.bind fun _ => uniform_pure _

theorem uniform_payloadLength : Uniform payloadLength := by
  intro depth bytes
  by_cases hdepth : nestingLimit ≤ depth
  · refine .error .nestingTooDeep 0 (Nat.zero_le _) ?_
    intro input cursor _ hcursor _
    unfold payloadLength
    rw [if_pos (hcursor ▸ hdepth), Cursor.forward_zero]
  · have hpass : ∀ (input : Bytes) (cursor : Cursor), cursor.depth = depth →
        payloadLength input cursor = (UInt32.toNat <$> varint32) input cursor := by
      intro input cursor hcursor
      unfold payloadLength
      rw [if_neg (hcursor ▸ hdepth)]
    refine .advance (Nat.zero_le _) (uniform_varint32.map UInt32.toNat depth bytes) ?_
    intro input cursor _ hcursor _
    exact hpass input cursor hcursor

theorem Uniform.delimited {body : Read α} (h : Uniform body) : Uniform (delimited body) :=
  uniform_payloadLength.bind fun length => (h.withLimit length).deeper

theorem uniform_lengthPrefixed : Uniform lengthPrefixed :=
  uniform_varint32.bind fun _ => uniform_take _

theorem uniform_fixed (width : Nat) : Uniform (fixed width) :=
  (uniform_take width).bind fun _ => uniform_pure _

theorem uniform_scalar (type : ScalarType) : Uniform (scalar type) := by
  cases type with
  | string =>
      refine uniform_lengthPrefixed.bind fun payload => ?_
      split
      · exact uniform_pure _
      · exact uniform_throw _
  | bytes => exact uniform_lengthPrefixed
  | uint32 => exact uniform_varint32
  | uint64 => exact uniform_varint64
  | int32 | int64 | sint64 | bool => exact uniform_varint64.bind fun _ => uniform_pure _
  | sint32 => exact uniform_varint32.bind fun _ => uniform_pure _
  | double | float | fixed32 | fixed64 | sfixed32 | sfixed64 =>
      exact (uniform_fixed _).bind fun _ => uniform_pure _

theorem uniform_skip (wireType : UInt8) : Uniform (skip wireType) := by
  have hbyte : Uniform varintByte := uniform_byte.bind fun _ => uniform_pure _
  unfold skip
  repeat' split
  · exact Uniform.iterate (fun _ => hbyte) ()
  · exact (uniform_take _).map _
  · exact uniform_lengthPrefixed.map _
  · exact (uniform_take _).map _
  · exact uniform_throw _

theorem uniform_expect (found : Key) (expected : UInt8) : Uniform (expect found expected) := by
  unfold expect
  split
  · exact uniform_pure _
  · exact uniform_throw _

/-- A step that reads something while the limit is not reached. -/
theorem Uniform.untilEnd {read : Read σ} (h : Uniform read) :
    Uniform (do if ← atEnd then return none else some <$> read) := by
  refine uniform_atEnd.bind fun ended => ?_
  split
  · exact uniform_pure _
  · exact h.map some

theorem uniform_run {element : σ → Read σ} {consumes : ∀ s, Consumes (element s)}
    (h : ∀ s, Uniform (element s)) (s : σ) : Uniform (run element consumes s) :=
  Uniform.iterate (fun s => (h s).untilEnd) s

theorem uniform_packable {element : σ → Read σ} {consumes : ∀ s, Consumes (element s)}
    (h : ∀ s, Uniform (element s)) (found : Key) (natural : UInt8) (s : σ) :
    Uniform (packable found natural element consumes s) := by
  unfold packable
  split
  · exact (uniform_run h s).delimited
  · exact (uniform_expect _ _).bind fun _ => h s

end Read

end WireCodec
