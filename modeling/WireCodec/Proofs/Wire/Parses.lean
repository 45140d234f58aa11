import WireCodec.Proofs.Wire.Tree
import WireCodec.Proofs.Wire.VarintValue
import WireCodec.Wire.Cursor.Packable

/-! # What a read makes of given bytes

A read parses a list of bytes if its outcome on them is the same wherever they
stand and whatever follows. A body finishes a payload if its outcome is the
same wherever the payload stands and the limit is its end. Outcomes compose
along the operations that reads are made of.
-/

namespace WireCodec

namespace Cursor

/-- The cursor does not stand beyond its limit, nor the limit beyond the input. -/
structure Inside (input : Bytes) (cursor : Cursor) : Prop where
  offset_le : cursor.offset ≤ cursor.limit
  limit_le : cursor.limit ≤ input.size

/-- The bytes from a cursor up to its limit. -/
def view (input : Bytes) (cursor : Cursor) : List UInt8 :=
  (input.toList.take cursor.limit).drop cursor.offset

/-- The cursor some bytes further. -/
def forward (cursor : Cursor) (count : Nat) : Cursor :=
  { cursor with offset := cursor.offset + count }

@[simp]
theorem forward_depth (cursor : Cursor) (count : Nat) : (cursor.forward count).depth = cursor.depth :=
  rfl

@[simp]
theorem forward_zero (cursor : Cursor) : cursor.forward 0 = cursor := rfl

theorem forward_forward (cursor : Cursor) (first second : Nat) :
    (cursor.forward first).forward second = cursor.forward (first + second) := by
  simp only [forward, Nat.add_assoc]

theorem view_start (input : Bytes) : (start input).view input = input.toList := by
  simp [view, start, ← Array.length_toList]

theorem inside_start (input : Bytes) : (start input).Inside input :=
  ⟨Nat.zero_le _, Nat.le_refl _⟩

variable {input : Bytes} {cursor : Cursor}

theorem Inside.length_view (h : cursor.Inside input) :
    (cursor.view input).length = cursor.remaining := by
  have hlimit := h.limit_le
  simp only [view, remaining, List.length_drop, List.length_take, Array.length_toList]
  omega

theorem Inside.forward (h : cursor.Inside input) {bytes rest : List UInt8}
    (hview : cursor.view input = bytes ++ rest) : (cursor.forward bytes.length).Inside input := by
  have hlength := h.length_view
  have hoffset := h.offset_le
  rw [hview, List.length_append, remaining] at hlength
  refine ⟨?_, h.limit_le⟩
  simp only [Cursor.forward]
  omega

theorem view_forward {bytes rest : List UInt8} (hview : cursor.view input = bytes ++ rest) :
    (cursor.forward bytes.length).view input = rest := by
  have hdrop : (cursor.forward bytes.length).view input =
      (cursor.view input).drop bytes.length := by
    simp only [view, forward, List.drop_drop]
  rw [hdrop, hview, List.drop_left]

theorem Inside.atEnd_eq (h : cursor.Inside input) :
    cursor.atEnd = (cursor.view input).isEmpty := by
  have hlength := h.length_view
  rw [remaining] at hlength
  cases hview : cursor.view input with
  | nil =>
      rw [hview, List.length_nil] at hlength
      simp only [atEnd, List.isEmpty_nil, decide_eq_true_eq]
      omega
  | cons byte rest =>
      rw [hview, List.length_cons] at hlength
      simp only [atEnd, List.isEmpty_cons, decide_eq_false_iff_not]
      omega

/-- Below a limit that has enough bytes before it, the limit may be set to
the end of a payload. -/
theorem Inside.enter {payload rest : List UInt8} (hinside : cursor.Inside input)
    (hview : cursor.view input = payload ++ rest) :
    ∃ inner : Cursor, Read.enter? payload.length cursor = some inner ∧ inner.Inside input ∧
      inner.depth = cursor.depth ∧ inner.limit = cursor.offset + payload.length ∧
      inner.view input = payload := by
  have hlength := hinside.length_view
  have hlimit := hinside.limit_le
  have hoffset := hinside.offset_le
  rw [hview, List.length_append, remaining] at hlength
  refine ⟨{ cursor with limit := cursor.offset + payload.length }, ?_, ⟨?_, ?_⟩, rfl, rfl, ?_⟩
  · unfold Read.enter? remaining
    rw [if_neg (by omega)]
  · exact Nat.le_add_right _ _
  · simp only
    omega
  · have hmin : min (cursor.offset + payload.length) cursor.limit =
        cursor.offset + payload.length := by omega
    calc (input.toList.take (cursor.offset + payload.length)).drop cursor.offset
        = (cursor.view input).take payload.length := by
          rw [view, ← hmin, ← List.take_take, List.drop_take,
            Nat.add_sub_cancel_left]
      _ = payload := by rw [hview, List.take_left]

end Cursor

namespace Read

variable {α β σ : Type} {depth : Nat} {e : DecodeError}

/-- On these bytes, whatever stands around them, a read has this outcome. After
a success the cursor stands behind the bytes. -/
def Parses (read : Read α) (depth : Nat) (bytes : List UInt8) :
    Except DecodeError α → Prop
  | .ok a => ∀ (input : Bytes) (cursor : Cursor) (rest : List UInt8),
      cursor.Inside input → cursor.depth = depth → cursor.view input = bytes ++ rest →
      read input cursor = .ok a (cursor.forward bytes.length)
  | .error e => ∀ (input : Bytes) (cursor : Cursor) (rest : List UInt8),
      cursor.Inside input → cursor.depth = depth → cursor.view input = bytes ++ rest →
      ∃ after, read input cursor = .error e after

/-- On these bytes, when the limit is their end, a read has this outcome. It
need not look at all of them. -/
def Finishes (body : Read α) (depth : Nat) (bytes : List UInt8) :
    Except DecodeError α → Prop
  | .ok a => ∀ (input : Bytes) (cursor : Cursor),
      cursor.Inside input → cursor.depth = depth → cursor.view input = bytes →
      ∃ after, body input cursor = .ok a after ∧ after.depth = depth
  | .error e => ∀ (input : Bytes) (cursor : Cursor),
      cursor.Inside input → cursor.depth = depth → cursor.view input = bytes →
      ∃ after, body input cursor = .error e after

theorem bind_of_ok {read : Read α} {next : α → Read β} {input : Bytes} {before middle : Cursor}
    {a : α} (h : read input before = .ok a middle) :
    (read >>= next) input before = next a input middle := by
  simp only [bind, ReaderT.bind, EStateM.bind, h]

theorem bind_of_error {read : Read α} {next : α → Read β} {input : Bytes}
    {before after : Cursor} (h : read input before = .error e after) :
    (read >>= next) input before = .error e after := by
  simp only [bind, ReaderT.bind, EStateM.bind, h]

theorem map_of_ok {read : Read α} {f : α → β} {input : Bytes} {before after : Cursor} {a : α}
    (h : read input before = .ok a after) : (f <$> read) input before = .ok (f a) after := by
  simp only [Functor.map, EStateM.map, h]

theorem map_of_error {read : Read α} {f : α → β} {input : Bytes} {before after : Cursor}
    (h : read input before = .error e after) : (f <$> read) input before = .error e after := by
  simp only [Functor.map, EStateM.map, h]

theorem parses_pure (a : α) : Parses (pure a) depth [] (.ok a) :=
  fun _ _ _ _ _ _ => rfl

theorem parses_throw (e : DecodeError) (bytes : List UInt8) :
    Parses (throw e : Read α) depth bytes (.error e) :=
  fun _ cursor _ _ _ _ => ⟨cursor, rfl⟩

theorem Parses.bind {read : Read α} {next : α → Read β} {first second : List UInt8} {a : α}
    {outcome : Except DecodeError β} (hread : Parses read depth first (.ok a))
    (hnext : Parses (next a) depth second outcome) :
    Parses (read >>= next) depth (first ++ second) outcome := by
  cases outcome with
  | ok b =>
      intro input cursor rest hinside hdepth hview
      rw [List.append_assoc] at hview
      rw [bind_of_ok (hread input cursor _ hinside hdepth hview),
        hnext input _ rest (hinside.forward hview) hdepth (Cursor.view_forward hview),
        Cursor.forward_forward, List.length_append]
  | error e =>
      intro input cursor rest hinside hdepth hview
      rw [List.append_assoc] at hview
      rw [bind_of_ok (hread input cursor _ hinside hdepth hview)]
      exact hnext input _ rest (hinside.forward hview) hdepth (Cursor.view_forward hview)

theorem Parses.bind_nil {read : Read α} {next : α → Read β} {bytes : List UInt8} {a : α}
    {outcome : Except DecodeError β} (hread : Parses read depth bytes (.ok a))
    (hnext : Parses (next a) depth [] outcome) : Parses (read >>= next) depth bytes outcome := by
  have h := hread.bind hnext
  rwa [List.append_nil] at h

theorem Parses.bind_error {read : Read α} {next : α → Read β} {bytes : List UInt8}
    (h : Parses read depth bytes (.error e)) : Parses (read >>= next) depth bytes (.error e) := by
  intro input cursor rest hinside hdepth hview
  obtain ⟨after, hread⟩ := h input cursor rest hinside hdepth hview
  exact ⟨after, bind_of_error hread⟩

/-- What follows a read and takes no bytes itself decides about its values. -/
theorem exists_bind_outcome {read : Read α} {next : α → Read β}
    (hnext : ∀ a, ∃ outcome, Parses (next a) depth [] outcome) :
    ∃ f : α → Except DecodeError β, ∀ bytes outcome, Parses read depth bytes outcome →
      Parses (read >>= next) depth bytes (outcome >>= f) := by
  choose f hf using hnext
  refine ⟨f, fun bytes outcome hread => ?_⟩
  cases outcome with
  | ok a => exact hread.bind_nil (hf a)
  | error e => exact hread.bind_error

theorem Parses.map {read : Read α} {bytes : List UInt8} {outcome : Except DecodeError α}
    (h : Parses read depth bytes outcome) (f : α → β) :
    Parses (f <$> read) depth bytes (outcome.map f) := by
  cases outcome with
  | ok a =>
      intro input cursor rest hinside hdepth hview
      exact map_of_ok (h input cursor rest hinside hdepth hview)
  | error e =>
      intro input cursor rest hinside hdepth hview
      obtain ⟨after, hread⟩ := h input cursor rest hinside hdepth hview
      exact ⟨after, map_of_error hread⟩

theorem Finishes.map {read : Read α} {bytes : List UInt8} {outcome : Except DecodeError α}
    (h : Finishes read depth bytes outcome) (f : α → β) :
    Finishes (f <$> read) depth bytes (outcome.map f) := by
  cases outcome with
  | ok a =>
      intro input cursor hinside hdepth hview
      obtain ⟨after, hread, hafter⟩ := h input cursor hinside hdepth hview
      exact ⟨after, map_of_ok hread, hafter⟩
  | error e =>
      intro input cursor hinside hdepth hview
      obtain ⟨after, hread⟩ := h input cursor hinside hdepth hview
      exact ⟨after, map_of_error hread⟩

theorem Parses.finishes_error {read : Read α} {bytes : List UInt8} {e : DecodeError}
    (h : Parses read depth bytes (.error e)) (rest : List UInt8) :
    Finishes read depth (bytes ++ rest) (.error e) :=
  fun input cursor => h input cursor rest

theorem parses_byte (b : UInt8) : Parses byte depth [b] (.ok b) := by
  intro input cursor rest hinside _ hview
  have hlength := hinside.length_view
  have hlimit := hinside.limit_le
  rw [hview, Cursor.remaining] at hlength
  simp only [List.singleton_append, List.length_cons] at hlength
  have hbound : cursor.offset < cursor.limit ∧ cursor.offset < input.size := by omega
  have hin : cursor.offset < input.size := hbound.2
  have hget : input[cursor.offset] = b := by
    -- the byte at the cursor is the first one of the view
    have hfirst := congrArg (·[0]?) hview
    simp only [Cursor.view, List.getElem?_drop, List.getElem?_take, Nat.add_zero, hbound.1,
      if_pos, List.singleton_append, List.getElem?_cons_zero] at hfirst
    simpa [Array.getElem?_toList, hin] using hfirst
  unfold byte
  rw [dif_pos hbound, hget]
  rfl

theorem parses_take (depth : Nat) {count : Nat} {bytes : List UInt8} (hcount : bytes.length = count) :
    Parses (take count) depth bytes (.ok bytes.toArray) := by
  intro input cursor rest hinside _ hview
  have hoffset := hinside.offset_le
  have hlength := hinside.length_view
  rw [hview, List.length_append] at hlength
  have hextract : input.extract cursor.offset (cursor.offset + count) = bytes.toArray := by
    have htake : (cursor.view input).take count = bytes := by
      rw [hview, ← hcount, List.take_left]
    rw [Cursor.remaining] at hlength
    apply Array.toList_inj.mp
    rw [Array.toList_extract, List.extract_eq_take_drop, ← htake, Cursor.view, List.drop_take,
      List.take_take, Nat.add_sub_cancel_left]
    congr 1
    omega
  unfold take
  rw [if_neg (by omega), hextract, hcount]
  rfl

/-! ## Varints -/

/-- A reader that collects groups: so many of them at most, up to one that says
no more follow. -/
structure CollectsGroups {W : Type} (groups : (left done : Nat) → W → Read W) : Prop where
  zero : ∀ done word, groups 0 done word = throw .malformedVarint
  succ : ∀ left done word, ∃ collect : UInt8 → W, groups (left + 1) done word = do
    let group ← byte
    if Varint.continues group then groups left (done + 1) (collect group) else return collect group

theorem collectsGroups_varint32 : CollectsGroups varint32Groups :=
  ⟨fun _ _ => rfl, fun _ _ _ => ⟨_, rfl⟩⟩

theorem collectsGroups_varint64 : CollectsGroups varint64Groups :=
  ⟨fun _ _ => rfl, fun _ _ _ => ⟨_, rfl⟩⟩

/-- A reader of groups has every property that its failure and all values have,
and that a byte in front keeps. -/
theorem CollectsGroups.induction {W : Type} {groups : Nat → Nat → W → Read W}
    (h : CollectsGroups groups) {motive : Read W → Prop} (hthrow : motive (throw .malformedVarint))
    (hpure : ∀ word, motive (pure word))
    (hbyte : ∀ next : UInt8 → Read W, (∀ group, motive (next group)) → motive (byte >>= next))
    (left done : Nat) (word : W) : motive (groups left done word) := by
  induction left generalizing done word with
  | zero => exact h.zero done word ▸ hthrow
  | succ left ih =>
      obtain ⟨collect, hgroups⟩ := h.succ left done word
      rw [hgroups]
      refine hbyte _ fun group => ?_
      split
      · exact ih _ _
      · exact hpure _

theorem varint32_induction {motive : Read UInt32 → Prop}
    (hthrow : motive (throw .malformedVarint)) (hpure : ∀ word, motive (pure word))
    (hbyte : ∀ next : UInt8 → Read UInt32, (∀ group, motive (next group)) →
      motive (byte >>= next)) : motive varint32 :=
  collectsGroups_varint32.induction hthrow hpure hbyte 10 0 0

theorem varint64_induction {motive : Read UInt64 → Prop}
    (hthrow : motive (throw .malformedVarint)) (hpure : ∀ word, motive (pure word))
    (hbyte : ∀ next : UInt8 → Read UInt64, (∀ group, motive (next group)) →
      motive (byte >>= next)) : motive varint64 :=
  collectsGroups_varint64.induction hthrow hpure hbyte 10 0 0

theorem parses_varint32Groups {bytes : List UInt8} (hbytes : Varint.Terminated bytes)
    {left done : Nat} {word : UInt32} (hlength : bytes.length ≤ left)
    (hword : done < 5 → word.toNat < 2 ^ (7 * done)) :
    Parses (varint32Groups left done word) depth bytes
      (.ok (UInt32.ofNat (word.toNat + 2 ^ (7 * done) * Varint.value bytes))) := by
  induction hbytes generalizing left done word with
  | @last group hlast =>
      obtain ⟨left, rfl⟩ := Nat.exists_eq_add_of_lt hlength
      refine (parses_byte group).bind_nil ?_
      simp only [Varint.collect32 hword, hlast]
      exact parses_pure _
  | @more group rest hmore hrest ih =>
      obtain ⟨left, rfl⟩ := Nat.exists_eq_add_of_lt hlength
      refine (parses_byte group).bind ?_
      simp only [Varint.collect32 hword, hmore, if_true]
      -- the bound on the word matters for the first five groups only: later ones are cut off
      let next := UInt32.ofNat (word.toNat + 2 ^ (7 * done) * (group.toNat % 128))
      have hnext : done + 1 < 5 → next.toNat < 2 ^ (7 * (done + 1)) := by
        intro hdone
        refine Nat.lt_of_le_of_lt ?_ (Varint.add_group_lt (hword (by omega)) group)
        rw [UInt32.toNat_ofNat']
        exact Nat.mod_le _ _
      convert ih (Nat.le_add_right _ left) hnext using 2
      apply UInt32.toNat_inj.mp
      simp only [next, UInt32.toNat_ofNat', Nat.mod_add_mod, Varint.add_group_value]

theorem parses_varint64Groups {bytes : List UInt8} (hbytes : Varint.Terminated bytes)
    {left done : Nat} {word : UInt64} (hlength : bytes.length ≤ left) (hleft : left + done ≤ 10)
    (hword : word.toNat < 2 ^ (7 * done)) :
    Parses (varint64Groups left done word) depth bytes
      (.ok (UInt64.ofNat (word.toNat + 2 ^ (7 * done) * Varint.value bytes))) := by
  induction hbytes generalizing left done word with
  | @last group hlast =>
      obtain ⟨left, rfl⟩ := Nat.exists_eq_add_of_lt hlength
      refine (parses_byte group).bind_nil ?_
      simp only [Varint.collect64 (by omega : done < 10) hword, hlast]
      exact parses_pure _
  | @more group rest hmore hrest ih =>
      obtain ⟨left, rfl⟩ := Nat.exists_eq_add_of_lt hlength
      refine (parses_byte group).bind ?_
      simp only [Varint.collect64 (by omega : done < 10) hword, hmore, if_true]
      let next := UInt64.ofNat (word.toNat + 2 ^ (7 * done) * (group.toNat % 128))
      have hnext : next.toNat < 2 ^ (7 * (done + 1)) := by
        refine Nat.lt_of_le_of_lt ?_ (Varint.add_group_lt hword group)
        rw [UInt64.toNat_ofNat']
        exact Nat.mod_le _ _
      convert ih (Nat.le_add_right _ left) (by omega) hnext using 2
      apply UInt64.toNat_inj.mp
      simp only [next, UInt64.toNat_ofNat', Nat.mod_add_mod, Varint.add_group_value]

/-- A varint of at most ten bytes is read whole, and 32 bits of its value are kept. -/
theorem parses_varint32 (depth : Nat) {bytes : List UInt8} (hbytes : Varint.Terminated bytes)
    (hlength : bytes.length ≤ 10) :
    Parses varint32 depth bytes (.ok (UInt32.ofNat (Varint.value bytes))) := by
  have h : Parses (varint32Groups 10 0 0) depth bytes _ :=
    parses_varint32Groups hbytes hlength (fun _ => by decide)
  simpa [varint32] using h

theorem parses_varint64 (depth : Nat) {bytes : List UInt8} (hbytes : Varint.Terminated bytes)
    (hlength : bytes.length ≤ 10) :
    Parses varint64 depth bytes (.ok (UInt64.ofNat (Varint.value bytes))) := by
  have h : Parses (varint64Groups 10 0 0) depth bytes _ :=
    parses_varint64Groups hbytes hlength (Nat.le_refl _) (by decide)
  simpa [varint64] using h

theorem parses_varint32_encode (depth : Nat) (n : UInt32) :
    Parses varint32 depth (Varint.encode n.toNat) (.ok n) := by
  have hlength : (Varint.encode n.toNat).length ≤ 10 :=
    Varint.length_encode_le (by decide) (Nat.lt_trans n.toNat_lt (by decide))
  have h := parses_varint32 depth (Varint.terminated_encode n.toNat) hlength
  rwa [Varint.value_encode, UInt32.ofNat_toNat] at h

theorem parses_varint64_encode (depth : Nat) (n : UInt64) :
    Parses varint64 depth (Varint.encode n.toNat) (.ok n) := by
  have hlength : (Varint.encode n.toNat).length ≤ 10 :=
    Varint.length_encode_le (by decide) (Nat.lt_trans n.toNat_lt (by decide))
  have h := parses_varint64 depth (Varint.terminated_encode n.toNat) hlength
  rwa [Varint.value_encode, UInt64.ofNat_toNat] at h

/-! ## Payloads -/

theorem Finishes.withLimit {body : Read α} {payload : List UInt8}
    {outcome : Except DecodeError α} (h : Finishes body depth payload outcome) :
    Parses (withLimit payload.length body) depth payload outcome := by
  cases outcome with
  | ok a =>
      intro input cursor rest hinside hdepth hview
      obtain ⟨inner, henter, hin, hinnerDepth, hinnerLimit, hinnerView⟩ := hinside.enter hview
      obtain ⟨after, hbody, hafter⟩ := h input inner hin (hinnerDepth.trans hdepth) hinnerView
      simp only [Read.withLimit, henter, hbody, Cursor.forward, hinnerLimit, hafter, hdepth]
  | error e =>
      intro input cursor rest hinside hdepth hview
      obtain ⟨inner, henter, hin, hinnerDepth, _, hinnerView⟩ := hinside.enter hview
      obtain ⟨after, hbody⟩ := h input inner hin (hinnerDepth.trans hdepth) hinnerView
      simp only [Read.withLimit, henter, hbody]
      exact ⟨_, rfl⟩

theorem Parses.deeper {body : Read α} {bytes : List UInt8} {outcome : Except DecodeError α}
    (h : Parses body (depth + 1) bytes outcome) : Parses (deeper body) depth bytes outcome := by
  cases outcome with
  | ok a =>
      intro input cursor rest hinside hdepth hview
      have hbody := h input { cursor with depth := cursor.depth + 1 } rest
        ⟨hinside.offset_le, hinside.limit_le⟩ (congrArg (· + 1) hdepth) hview
      simp only [Read.deeper, hbody, Cursor.forward, Nat.add_sub_cancel]
  | error e =>
      intro input cursor rest hinside hdepth hview
      obtain ⟨after, hbody⟩ := h input { cursor with depth := cursor.depth + 1 } rest
        ⟨hinside.offset_le, hinside.limit_le⟩ (congrArg (· + 1) hdepth) hview
      simp only [Read.deeper, hbody]
      exact ⟨_, rfl⟩

theorem parses_payloadLength {bytes : List UInt8} {n : UInt32} (hdepth : depth < nestingLimit)
    (h : Parses varint32 depth bytes (.ok n)) : Parses payloadLength depth bytes (.ok n.toNat) := by
  intro input cursor rest hinside hcursor hview
  unfold payloadLength
  rw [if_neg (by omega)]
  exact map_of_ok (h input cursor rest hinside hcursor hview)

/-- Of the byte count of a payload 32 bits are written and read back. -/
theorem parses_byteCount (depth count : Nat) :
    Parses varint32 depth (Varint.encode (count % 2 ^ 32)) (.ok (UInt32.ofNat count)) := by
  have h := parses_varint32_encode depth (UInt32.ofNat count)
  rwa [UInt32.toNat_ofNat'] at h

/-- A payload behind its byte count, in whatever form that is, is read as it
is read by itself, one level deeper. -/
theorem Finishes.delimited_of_count {body : Read α} {count payload : List UInt8} {length : UInt32}
    {outcome : Except DecodeError α} (h : Finishes body (depth + 1) payload outcome)
    (hdepth : depth < nestingLimit) (hcount : Parses varint32 depth count (.ok length))
    (hlength : length.toNat = payload.length) :
    Parses (delimited body) depth (count ++ payload) outcome := by
  refine (parses_payloadLength hdepth hcount).bind ?_
  rw [hlength]
  exact h.withLimit.deeper

theorem Finishes.delimited {body : Read α} {payload : List UInt8}
    {outcome : Except DecodeError α} (h : Finishes body (depth + 1) payload outcome)
    (hdepth : depth < nestingLimit) (hpayload : payload.length < 2 ^ 32) :
    Parses (delimited body) depth (delimitedForm payload) outcome := by
  refine h.delimited_of_count hdepth (parses_byteCount depth payload.length) ?_
  rw [UInt32.toNat_ofNat', Nat.mod_eq_of_lt hpayload]

/-- At the nesting limit no payload is entered, whatever its bytes are. -/
theorem parses_delimited_of_limit {body : Read α} (hdepth : nestingLimit ≤ depth)
    (bytes : List UInt8) : Parses (delimited body) depth bytes (.error .nestingTooDeep) := by
  refine Parses.bind_error ?_
  intro input cursor rest _ hcursor _
  unfold payloadLength
  rw [if_pos (by omega)]
  exact ⟨cursor, rfl⟩

/-! ## Loops -/

variable {step : σ → Read (Option σ)} {advances : ∀ s, Advances (step s)} {s next : σ}

theorem parses_iterate_none (hstep : Parses (step s) depth bytes (.ok none)) :
    Parses (iterate step advances s) depth bytes (.ok s) := by
  intro input cursor rest hinside hdepth hview
  exact iterate_of_none (hstep input cursor rest hinside hdepth hview)

theorem Parses.iterate_some {first second : List UInt8} {s' : σ}
    (hstep : Parses (step s) depth first (.ok (some next)))
    (h : Parses (iterate step advances next) depth second (.ok s')) :
    Parses (iterate step advances s) depth (first ++ second) (.ok s') := by
  intro input cursor rest hinside hdepth hview
  rw [List.append_assoc] at hview
  rw [iterate_of_some (hstep input cursor _ hinside hdepth hview),
    h input _ rest (hinside.forward hview) hdepth (Cursor.view_forward hview),
    Cursor.forward_forward, List.length_append]

theorem Finishes.iterate_some {first second : List UInt8} {outcome : Except DecodeError σ}
    (hstep : Parses (step s) depth first (.ok (some next)))
    (h : Finishes (iterate step advances next) depth second outcome) :
    Finishes (iterate step advances s) depth (first ++ second) outcome := by
  cases outcome with
  | ok a =>
      intro input cursor hinside hdepth hview
      rw [iterate_of_some (hstep input cursor second hinside hdepth hview)]
      exact h input _ (hinside.forward hview) hdepth (Cursor.view_forward hview)
  | error e =>
      intro input cursor hinside hdepth hview
      rw [iterate_of_some (hstep input cursor second hinside hdepth hview)]
      exact h input _ (hinside.forward hview) hdepth (Cursor.view_forward hview)

theorem Finishes.iterate_error (hstep : Finishes (step s) depth bytes (.error e)) :
    Finishes (iterate step advances s) depth bytes (.error e) := by
  intro input cursor hinside hdepth hview
  obtain ⟨after, hfound⟩ := hstep input cursor hinside hdepth hview
  exact ⟨after, iterate_of_error hfound⟩

theorem finishes_iterate_none (hstep : Finishes (step s) depth bytes (.ok none)) :
    Finishes (iterate step advances s) depth bytes (.ok s) := by
  intro input cursor hinside hdepth hview
  obtain ⟨after, hfound, hafter⟩ := hstep input cursor hinside hdepth hview
  exact ⟨after, iterate_of_none hfound, hafter⟩

/-- What may stand in place of a read at the limit does not matter before it. -/
theorem Parses.ifEnd {read fallback : Read α} {bytes : List UInt8}
    {outcome : Except DecodeError α} (h : Parses read depth bytes outcome) (hbytes : bytes ≠ []) :
    Parses (do if ← atEnd then fallback else read) depth bytes outcome := by
  have hatEnd : ∀ {input : Bytes} {cursor : Cursor} {rest : List UInt8}, cursor.Inside input →
      cursor.view input = bytes ++ rest →
      (do if ← atEnd then fallback else read : Read α) input cursor = read input cursor := by
    intro input cursor rest hinside hview
    have hend : cursor.atEnd = false := by
      rw [hinside.atEnd_eq, hview, List.isEmpty_eq_false_iff]
      exact List.append_ne_nil_of_left_ne_nil hbytes rest
    have hrun : atEnd input cursor = .ok cursor.atEnd cursor := rfl
    rw [bind_of_ok hrun, hend]
    rfl
  cases outcome with
  | ok a =>
      intro input cursor rest hinside hdepth hview
      rw [hatEnd hinside hview]
      exact h input cursor rest hinside hdepth hview
  | error e =>
      intro input cursor rest hinside hdepth hview
      rw [hatEnd hinside hview]
      exact h input cursor rest hinside hdepth hview

theorem finishes_ifEnd {read : Read α} (a : α) :
    Finishes (do if ← atEnd then pure a else read) depth [] (.ok a) := by
  intro input cursor hinside hdepth hview
  have hend : cursor.atEnd = true := by
    rw [hinside.atEnd_eq, hview, List.isEmpty_nil]
  have hrun : atEnd input cursor = .ok cursor.atEnd cursor := rfl
  refine ⟨cursor, ?_, hdepth⟩
  rw [bind_of_ok hrun, hend]
  rfl

end Read

end WireCodec
