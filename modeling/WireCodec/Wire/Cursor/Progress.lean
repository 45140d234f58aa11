import WireCodec.Wire.Cursor

/-! # Progress of reads

A read that succeeds keeps the limit and never goes back, and a read of a
scalar, a payload or a key goes forward by at least one byte. What the body of
a payload does has no influence on this.
-/

namespace WireCodec.Read

variable {α β σ : Type}

/-- A successful run keeps the limit and does not go back. -/
def Steady (read : Read α) : Prop :=
  ∀ input before a after, read input before = .ok a after →
    after.limit = before.limit ∧ before.offset ≤ after.offset

/-- A successful run keeps the limit and goes forward. -/
def Consumes (read : Read α) : Prop :=
  ∀ input before a after, read input before = .ok a after →
    after.limit = before.limit ∧ before.offset < before.limit ∧ before.offset < after.offset

theorem bind_eq_ok {read : Read α} {next : α → Read β} {input : Bytes} {before after : Cursor}
    {b : β} : (read >>= next) input before = .ok b after ↔
      ∃ a middle, read input before = .ok a middle ∧ next a input middle = .ok b after := by
  simp only [bind, ReaderT.bind, EStateM.bind]
  cases read input before with
  | ok a middle =>
      constructor
      · exact fun h => ⟨a, middle, rfl, h⟩
      · rintro ⟨_, _, heq, h⟩
        cases heq
        exact h
  | error e middle => simp

theorem map_eq_ok {read : Read α} {f : α → β} {input : Bytes} {before after : Cursor} {b : β} :
    (f <$> read) input before = .ok b after ↔
      ∃ a, read input before = .ok a after ∧ f a = b := by
  simp only [Functor.map, EStateM.map]
  cases read input before with
  | ok a middle => simp; grind
  | error e middle => simp

theorem Consumes.steady {read : Read α} (h : Consumes read) : Steady read := by
  intro input before a after hrun
  obtain ⟨hlimit, _, hoffset⟩ := h input before a after hrun
  exact ⟨hlimit, Nat.le_of_lt hoffset⟩

theorem steady_pure (a : α) : Steady (pure a) := by
  intro input before b after h
  cases h
  exact ⟨rfl, Nat.le_refl _⟩

theorem consumes_throw (e : DecodeError) : Consumes (throw e : Read α) := by
  intro input before b after h
  cases h

theorem Steady.bind {read : Read α} {next : α → Read β} (hread : Steady read)
    (hnext : ∀ a, Steady (next a)) : Steady (read >>= next) := by
  intro input before b after h
  obtain ⟨a, middle, hfirst, hsecond⟩ := bind_eq_ok.mp h
  obtain ⟨hlimit, hoffset⟩ := hread _ _ _ _ hfirst
  obtain ⟨hlimit', hoffset'⟩ := hnext a _ _ _ _ hsecond
  exact ⟨hlimit'.trans hlimit, Nat.le_trans hoffset hoffset'⟩

theorem Consumes.bind {read : Read α} {next : α → Read β} (hread : Consumes read)
    (hnext : ∀ a, Steady (next a)) : Consumes (read >>= next) := by
  intro input before b after h
  obtain ⟨a, middle, hfirst, hsecond⟩ := bind_eq_ok.mp h
  obtain ⟨hlimit, hinside, hoffset⟩ := hread _ _ _ _ hfirst
  obtain ⟨hlimit', hoffset'⟩ := hnext a _ _ _ _ hsecond
  exact ⟨hlimit'.trans hlimit, hinside, Nat.lt_of_lt_of_le hoffset hoffset'⟩

theorem Consumes.map {read : Read α} (f : α → β) (hread : Consumes read) :
    Consumes (f <$> read) := by
  intro input before b after h
  obtain ⟨a, hrun, _⟩ := map_eq_ok.mp h
  exact hread _ _ _ _ hrun

theorem Steady.map {read : Read α} (f : α → β) (hread : Steady read) : Steady (f <$> read) := by
  intro input before b after h
  obtain ⟨a, hrun, _⟩ := map_eq_ok.mp h
  exact hread _ _ _ _ hrun

theorem consumes_byte : Consumes byte := by
  intro input before b after h
  obtain ⟨hlt, rfl⟩ := byte_eq_ok h
  exact ⟨rfl, hlt, Nat.lt_succ_self _⟩

theorem steady_take (count : Nat) : Steady (take count) := by
  intro input before b after h
  unfold take at h
  split at h
  · cases h
  · cases h
    exact ⟨rfl, Nat.le_add_right _ _⟩

theorem consumes_take {count : Nat} (hcount : 0 < count) : Consumes (take count) := by
  intro input before b after h
  unfold take Cursor.remaining at h
  split at h
  · cases h
  · cases h
    exact ⟨rfl, by omega, by simp only; omega⟩

theorem consumes_varint32Groups (left done : Nat) (value : UInt32) :
    Consumes (varint32Groups left done value) := by
  induction left generalizing done value with
  | zero => exact consumes_throw _
  | succ left ih =>
      refine consumes_byte.bind fun group => ?_
      dsimp only
      split
      · exact (ih _ _).steady
      · exact steady_pure _

theorem consumes_varint64Groups (left done : Nat) (value : UInt64) :
    Consumes (varint64Groups left done value) := by
  induction left generalizing done value with
  | zero => exact consumes_throw _
  | succ left ih =>
      refine consumes_byte.bind fun group => ?_
      dsimp only
      split
      · exact (ih _ _).steady
      · exact steady_pure _

theorem consumes_varint32 : Consumes varint32 := consumes_varint32Groups _ _ _

theorem consumes_varint64 : Consumes varint64 := consumes_varint64Groups _ _ _

theorem consumes_lengthPrefixed : Consumes lengthPrefixed :=
  consumes_varint32.bind fun _ => steady_take _

theorem consumes_fixed {width : Nat} (hwidth : 0 < width) : Consumes (fixed width) :=
  (consumes_take hwidth).bind fun _ => steady_pure _

theorem consumes_scalar (type : ScalarType) : Consumes (scalar type) := by
  cases type with
  | string =>
      refine consumes_lengthPrefixed.bind fun payload => ?_
      split
      · exact steady_pure _
      · exact (consumes_throw _).steady
  | bytes => exact consumes_lengthPrefixed
  | uint32 => exact consumes_varint32
  | uint64 => exact consumes_varint64
  | int32 | int64 | sint64 | bool => exact consumes_varint64.bind fun _ => steady_pure _
  | sint32 => exact consumes_varint32.bind fun _ => steady_pure _
  | double | float | fixed32 | fixed64 | sfixed32 | sfixed64 =>
      exact (consumes_fixed (by decide)).bind fun _ => steady_pure _

theorem consumes_payloadLength : Consumes payloadLength := by
  intro input before length after h
  unfold payloadLength at h
  split at h
  · cases h
  · exact consumes_varint32.map _ _ _ _ _ h

theorem steady_withLimit (length : Nat) (body : Read α) : Steady (withLimit length body) := by
  intro input before a after h
  unfold withLimit enter? at h
  split at h
  · cases h
  · next inner hinner =>
    split at hinner
    · cases hinner
    · cases hinner
      split at h
      · cases h
        exact ⟨rfl, Nat.le_add_right _ _⟩
      · cases h

theorem Steady.deeper {body : Read α} (hbody : Steady body) : Steady (deeper body) := by
  intro input before a after h
  unfold Read.deeper at h
  split at h
  next inner hinner =>
    cases h
    obtain ⟨hlimit, hoffset⟩ := hbody _ _ _ _ hinner
    exact ⟨hlimit, hoffset⟩
  next => cases h

theorem consumes_delimited (body : Read α) : Consumes (delimited body) :=
  consumes_payloadLength.bind fun _ => (steady_withLimit _ _).deeper

/-- A key that is found lies before the limit and is passed. -/
theorem key_eq_some {input : Bytes} {before after : Cursor} {found : Key}
    (h : key input before = .ok (some found) after) :
    after.limit = before.limit ∧ before.offset < before.limit ∧ before.offset < after.offset := by
  obtain ⟨ended, middle, hend, h⟩ := bind_eq_ok.mp h
  cases hend
  cases hatEnd : before.atEnd with
  | true =>
      rw [hatEnd] at h
      cases h
  | false =>
      rw [hatEnd] at h
      obtain ⟨word, middle, hword, h⟩ := bind_eq_ok.mp h
      injection h with _ hafter
      subst hafter
      exact consumes_varint32 _ _ _ _ hword

theorem iterate_of_error {step : σ → Read (Option σ)} {advances : ∀ s, Advances (step s)} {s : σ}
    {input : Bytes} {before after : Cursor} {e : DecodeError}
    (h : step s input before = .error e after) :
    iterate step advances s input before = .error e after := by
  rw [iterate]
  split <;> simp_all

theorem iterate_of_none {step : σ → Read (Option σ)} {advances : ∀ s, Advances (step s)} {s : σ}
    {input : Bytes} {before after : Cursor} (h : step s input before = .ok none after) :
    iterate step advances s input before = .ok s after := by
  rw [iterate]
  split <;> simp_all

theorem iterate_of_some {step : σ → Read (Option σ)} {advances : ∀ s, Advances (step s)}
    {s next : σ} {input : Bytes} {before after : Cursor}
    (h : step s input before = .ok (some next) after) :
    iterate step advances s input before = iterate step advances next input after := by
  rw [iterate]
  split <;> simp_all

/-- A loop that answers stops at a step that answers nothing, after steps that go on. -/
@[elab_as_elim]
theorem iterate_ok_induction {step : σ → Read (Option σ)} {advances : ∀ s, Advances (step s)}
    {input : Bytes} {last : σ} {after : Cursor} {motive : ∀ (s : σ) (before : Cursor),
      iterate step advances s input before = .ok last after → Prop}
    (stop : ∀ before (hfound : step last input before = .ok none after),
      motive last before (iterate_of_none hfound))
    (next : ∀ s before next middle (hfound : step s input before = .ok (some next) middle)
      (hrest : iterate step advances next input middle = .ok last after),
      motive next middle hrest → motive s before ((iterate_of_some hfound).trans hrest))
    {s : σ} {before : Cursor} (h : iterate step advances s input before = .ok last after) :
    motive s before h := by
  induction s, before using iterate.induct step advances input with
  | case1 s before e middle hfound => cases (iterate_of_error hfound).symm.trans h
  | case2 s before middle hfound =>
      cases (iterate_of_none hfound).symm.trans h
      exact stop before hfound
  | case3 s before following middle hfound ih =>
      have hrest := (iterate_of_some hfound).symm.trans h
      exact next s before following middle hfound hrest (ih hrest)

theorem Steady.iterate {step : σ → Read (Option σ)} {advances : ∀ s, Advances (step s)}
    (hstep : ∀ s, Steady (step s)) (s : σ) : Steady (iterate step advances s) := by
  intro input before a after h
  induction h using iterate_ok_induction with
  | stop before hfound => exact hstep _ _ _ _ _ hfound
  | next s before next middle hfound _ ih =>
      obtain ⟨hlimit, hoffset⟩ := hstep _ _ _ _ _ hfound
      obtain ⟨hlimit', hoffset'⟩ := ih
      exact ⟨hlimit'.trans hlimit, Nat.le_trans hoffset hoffset'⟩

theorem steady_skipVarint : Steady skipVarint :=
  Steady.iterate (fun _ => (consumes_byte.bind fun _ => steady_pure _).steady) ()

theorem steady_skip (wireType : UInt8) : Steady (skip wireType) := by
  unfold skip
  repeat' split
  · exact steady_skipVarint
  · exact (steady_take _).map _
  · exact consumes_lengthPrefixed.steady.map _
  · exact (steady_take _).map _
  · exact (consumes_throw _).steady

theorem steady_expect (found : Key) (expected : UInt8) : Steady (expect found expected) := by
  unfold expect
  split
  · exact steady_pure _
  · exact (consumes_throw _).steady

/-- A step that reads something of at least one byte while the limit is not
reached may be repeated. -/
theorem advances_untilEnd {read : Read σ} (hread : Consumes read) :
    Advances (do if ← atEnd then return none else some <$> read) := by
  intro input before after next h
  obtain ⟨ended, middle, hend, h⟩ := bind_eq_ok.mp h
  cases hend
  cases hatEnd : before.atEnd with
  | true =>
      rw [hatEnd] at h
      cases h
  | false =>
      rw [hatEnd] at h
      obtain ⟨hlimit, hinside, hoffset⟩ := hread.map _ _ _ _ _ h
      omega

/-- A step that reads a key first and stops without one may be repeated. -/
theorem advances_key {read : Key → Read σ} (hread : ∀ found, Steady (read found)) :
    Advances (do match ← key with | none => return none | some found => some <$> read found) := by
  intro input before after next h
  obtain ⟨found, middle, hkey, h⟩ := bind_eq_ok.mp h
  cases found with
  | none => cases h
  | some found =>
      obtain ⟨hlimit, hinside, hoffset⟩ := key_eq_some hkey
      obtain ⟨hlimit', hoffset'⟩ := (hread found).map _ _ _ _ _ h
      omega

end WireCodec.Read
