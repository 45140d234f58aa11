import WireCodec.Proofs.Wire.Uniform

/-! # Discipline of reads

A read moves its cursor forward, at most to the limit, and leaves limit and
depth as they were, whether it succeeds or fails. This holds of every read
that sees bytes only, and what is made of such reads keeps to it, even if it
looks at the cursor or goes on after a failure.
-/

namespace WireCodec

namespace Cursor

/-- Inside the byte string, and not deeper than payloads may be nested. -/
structure Sound (input : Bytes) (cursor : Cursor) : Prop extends cursor.Inside input where
  depth_le : cursor.depth ≤ nestingLimit

/-- The second cursor is the first one moved forward, at most to the limit. -/
def Reaches (before after : Cursor) : Prop :=
  ∃ count ≤ before.remaining, after = before.forward count

variable {input : Bytes} {before middle after : Cursor}

theorem sound_start (input : Bytes) : (start input).Sound input :=
  ⟨inside_start input, Nat.zero_le _⟩

theorem Reaches.refl (cursor : Cursor) : cursor.Reaches cursor :=
  ⟨0, Nat.zero_le _, rfl⟩

theorem Reaches.trans (hfirst : before.Reaches middle) (hsecond : middle.Reaches after) :
    before.Reaches after := by
  obtain ⟨first, hfirst, rfl⟩ := hfirst
  obtain ⟨second, hsecond, rfl⟩ := hsecond
  refine ⟨first + second, ?_, forward_forward _ _ _⟩
  simp only [remaining, forward] at hfirst hsecond ⊢
  omega

theorem Reaches.offset_le (h : before.Reaches after) : before.offset ≤ after.offset := by
  obtain ⟨count, -, rfl⟩ := h
  exact Nat.le_add_right _ _

theorem Reaches.inside (h : before.Reaches after) (hbefore : before.Inside input) :
    after.Inside input := by
  obtain ⟨count, hcount, rfl⟩ := h
  exact hbefore.forward_of_le (hbefore.length_view ▸ hcount)

theorem Reaches.sound (h : before.Reaches after) (hbefore : before.Sound input) :
    after.Sound input := by
  refine ⟨h.inside hbefore.toInside, ?_⟩
  obtain ⟨count, -, rfl⟩ := h
  exact hbefore.depth_le

end Cursor

namespace Read

variable {α β : Type}

/-- What comes of a read, and the cursor it leaves behind in any case. -/
def ending (read : Read α) (input : Bytes) (cursor : Cursor) : Except DecodeError α × Cursor :=
  match read input cursor with
  | .ok a after => (.ok a, after)
  | .error e after => (.error e, after)

theorem ending_of_ok {read : Read α} {input : Bytes} {cursor after : Cursor} {a : α}
    (h : read input cursor = .ok a after) : read.ending input cursor = (.ok a, after) := by
  rw [ending, h]

theorem ending_of_error {read : Read α} {input : Bytes} {cursor after : Cursor} {e : DecodeError}
    (h : read input cursor = .error e after) : read.ending input cursor = (.error e, after) := by
  rw [ending, h]

theorem ending_bind (read : Read α) (next : α → Read β) (input : Bytes) (cursor : Cursor) :
    (read >>= next).ending input cursor =
      match read.ending input cursor with
      | (.ok a, after) => (next a).ending input after
      | (.error e, after) => (.error e, after) := by
  simp only [ending, bind, ReaderT.bind, EStateM.bind]
  cases read input cursor <;> rfl

theorem ending_map (read : Read α) (f : α → β) (input : Bytes) (cursor : Cursor) :
    (f <$> read).ending input cursor =
      ((read.ending input cursor).1.map f, (read.ending input cursor).2) := by
  simp only [ending, Functor.map, EStateM.map]
  cases read input cursor <;> rfl

theorem Uniform.exists_ending {read : Read α} (h : Uniform read) (depth : Nat)
    (bytes : List UInt8) :
    ∃ (outcome : Except DecodeError α) (count : Nat), count ≤ bytes.length ∧
      ∀ (input : Bytes) (cursor : Cursor), cursor.Inside input → cursor.depth = depth →
        cursor.view input = bytes → read.ending input cursor = (outcome, cursor.forward count) := by
  cases h depth bytes with
  | ok a count hcount h =>
      refine ⟨.ok a, count, hcount, ?_⟩
      intro input cursor hinside hdepth hview
      exact ending_of_ok (h input cursor hinside hdepth hview)
  | error e count hcount h =>
      refine ⟨.error e, count, hcount, ?_⟩
      intro input cursor hinside hdepth hview
      exact ending_of_error (h input cursor hinside hdepth hview)

/-- Whatever comes of it, the read only moves the cursor forward below its limit. -/
def Disciplined (read : Read α) : Prop :=
  ∀ (input : Bytes) (cursor : Cursor), cursor.Inside input →
    cursor.Reaches (read.ending input cursor).2

theorem Uniform.disciplined {read : Read α} (h : Uniform read) : Disciplined read := by
  intro input cursor hinside
  obtain ⟨outcome, count, hcount, hread⟩ := h.exists_ending cursor.depth (cursor.view input)
  rw [hread input cursor hinside rfl rfl]
  exact ⟨count, hinside.length_view ▸ hcount, rfl⟩

theorem Disciplined.reaches_of_ok {read : Read α} (h : Disciplined read) {input : Bytes}
    {before after : Cursor} {a : α} (hinside : before.Inside input)
    (hrun : read input before = .ok a after) : before.Reaches after := by
  have hreaches := h input before hinside
  rwa [ending_of_ok hrun] at hreaches

theorem Disciplined.bind {read : Read α} {next : α → Read β} (hread : Disciplined read)
    (hnext : ∀ a, Disciplined (next a)) : Disciplined (read >>= next) := by
  intro input cursor hinside
  have hfirst := hread input cursor hinside
  rw [ending_bind]
  split
  next a after hending =>
    rw [hending] at hfirst
    exact hfirst.trans (hnext a input after (hfirst.inside hinside))
  next e after hending => rwa [hending] at hfirst

/-- Makes a read and goes on with what came of it, a failure too. -/
def attempt (read : Read α) (next : Except DecodeError α → Read β) : Read β :=
  fun input cursor => next (read.ending input cursor).1 input (read.ending input cursor).2

theorem Disciplined.attempt {read : Read α} {next : Except DecodeError α → Read β}
    (hread : Disciplined read) (hnext : ∀ outcome, Disciplined (next outcome)) :
    Disciplined (attempt read next) := by
  intro input cursor hinside
  have hfirst := hread input cursor hinside
  exact hfirst.trans (hnext _ input _ (hfirst.inside hinside))

/-! ## Payloads -/

variable {input : Bytes} {cursor : Cursor} {length : Nat} {body : Read α}

theorem inside_inner (hinside : cursor.Inside input) (hlength : length ≤ cursor.remaining) :
    Cursor.Inside input { cursor with limit := cursor.offset + length } := by
  obtain ⟨inner, henter, hinner, -⟩ := enter?_of_le hinside (hinside.length_view ▸ hlength)
  obtain ⟨-, rfl⟩ := enter?_eq_some henter
  exact hinner

/-- A payload for which too little is left is not entered. -/
theorem ending_withLimit_of_lt (hlength : cursor.remaining < length) (body : Read α)
    (input : Bytes) :
    (withLimit length body).ending input cursor = (.error .unexpectedEof, cursor) := by
  simp only [ending, withLimit, enter?, if_pos hlength]

/-- A payload that is entered has the outcome of its body. The cursor is at its
end then, or, after a failure, somewhere in it. -/
theorem Disciplined.ending_withLimit (hbody : Disciplined body) (hinside : cursor.Inside input)
    (hlength : length ≤ cursor.remaining) :
    let inside := body.ending input { cursor with limit := cursor.offset + length }
    ∃ count ≤ length,
      (withLimit length body).ending input cursor = (inside.1, cursor.forward count) ∧
      inside.2.offset ≤ cursor.offset + count ∧
      ∀ a, inside.1 = .ok a → count = length := by
  obtain ⟨count, hcount, hreach⟩ := hbody input _ (inside_inner hinside hlength)
  simp only [Cursor.remaining, Nat.add_sub_cancel_left] at hcount
  simp only [ending, withLimit, enter?, if_neg (Nat.not_lt.mpr hlength)] at hreach ⊢
  cases hrun : body input { cursor with limit := cursor.offset + length } with
  | ok a after =>
      rw [hrun] at hreach
      obtain rfl := hreach
      exact ⟨length, Nat.le_refl _, rfl, Nat.add_le_add_left hcount _, fun _ _ => rfl⟩
  | error e after =>
      rw [hrun] at hreach
      obtain rfl := hreach
      exact ⟨count, hcount, rfl, Nat.le_refl _, fun _ h => by cases h⟩

theorem Disciplined.withLimit (hbody : Disciplined body) (length : Nat) :
    Disciplined (withLimit length body) := by
  intro input cursor hinside
  by_cases hlength : cursor.remaining < length
  · rw [ending_withLimit_of_lt hlength]
    exact .refl cursor
  · have hlength := Nat.le_of_not_lt hlength
    obtain ⟨count, hcount, hending, -⟩ := hbody.ending_withLimit hinside hlength
    rw [hending]
    exact ⟨count, Nat.le_trans hcount hlength, rfl⟩

theorem ending_deeper (body : Read α) (input : Bytes) (cursor : Cursor) :
    (deeper body).ending input cursor =
      let inner := body.ending input { cursor with depth := cursor.depth + 1 }
      (inner.1, { inner.2 with depth := inner.2.depth - 1 }) := by
  simp only [ending, deeper]
  cases body input { cursor with depth := cursor.depth + 1 } <;> rfl

theorem Disciplined.deeper (hbody : Disciplined body) : Disciplined (deeper body) := by
  intro input cursor hinside
  obtain ⟨count, hcount, hreach⟩ :=
    hbody input { cursor with depth := cursor.depth + 1 } ⟨hinside.offset_le, hinside.limit_le⟩
  simp only [ending_deeper, hreach]
  exact ⟨count, hcount, rfl⟩

theorem Disciplined.delimited (hbody : Disciplined body) : Disciplined (delimited body) :=
  uniform_payloadLength.disciplined.bind fun length => (hbody.withLimit length).deeper

end Read

end WireCodec
