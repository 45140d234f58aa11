import WireCodec.Proofs.Wire.ScalarForm
import WireCodec.Proofs.Wire.VarintReaders
import WireCodec.Proofs.Wire.Yields

/-! # Bytes that are read as a whole

What the bytes are like that a read takes to their end: the groups of one
varint where a varint is read, and the spelling of the key where a key is.
-/

namespace WireCodec

namespace Read

variable {α β : Type} {depth : Nat} {bytes : List UInt8}

theorem ending_eq_ok {read : Read α} {input : Bytes} {cursor after : Cursor} {a : α} :
    read.ending input cursor = (.ok a, after) ↔ read input cursor = .ok a after := by
  unfold ending
  cases read input cursor <;> simp

/-- The read takes the leading varint, and answers what is made of its number. -/
def TakesVarint (read : Read α) (f : Nat → α) : Prop :=
  ∀ (input : Bytes) (cursor : Cursor), cursor.Inside input →
    let found := Varint.leading (cursor.view input)
    read.ending input cursor = (found.1.map f, cursor.forward found.2)

theorem takesVarint_varint32 : TakesVarint varint32 UInt32.ofNat :=
  fun _ _ => ending_varint32

theorem takesVarint_varint64 : TakesVarint varint64 UInt64.ofNat :=
  fun _ _ => ending_varint64

theorem TakesVarint.map {read : Read α} {f : Nat → α} (h : TakesVarint read f) (g : α → β) :
    TakesVarint (g <$> read) (g ∘ f) := by
  intro input cursor hinside
  dsimp only
  rw [ending_map, h input cursor hinside]
  cases (Varint.leading (cursor.view input)).1 <;> rfl

/-- Bytes that such a read takes as a whole are the groups of a varint, ten at most. -/
theorem TakesVarint.terminated {read : Read α} {f : Nat → α} (hread : TakesVarint read f) {a : α}
    (h : Parses read depth bytes (.ok a)) :
    Varint.Terminated bytes ∧ bytes.length ≤ 10 ∧ a = f (Varint.value bytes) := by
  let cursor : Cursor := { Cursor.start bytes.toArray with depth := depth }
  have hinside : cursor.Inside bytes.toArray := ⟨Nat.zero_le _, Nat.le_refl _⟩
  have hview : cursor.view bytes.toArray = bytes := Cursor.view_start bytes.toArray
  have hrun := ending_of_ok (h _ cursor [] hinside rfl (hview.trans (List.append_nil _).symm))
  have hleading := (hread _ cursor hinside).symm.trans hrun
  rw [hview, Prod.mk.injEq] at hleading
  obtain ⟨hfound, hcount⟩ := hleading
  have hcount : (Varint.leading bytes).2 = bytes.length :=
    Nat.add_left_cancel (congrArg Cursor.offset hcount)
  cases hfind : (bytes.take 10).findIdx? (fun byte => byte.toNat < 0x80) with
  | none =>
      rw [Varint.leading, hfind] at hfound
      dsimp only at hfound
      split at hfound <;> cases hfound
  | some k =>
      obtain ⟨hshort, -, hterminated, hleading⟩ := Varint.leading_of_findIdx? hfind
      rw [hleading] at hfound hcount
      have htake : bytes.take (k + 1) = bytes := List.take_of_length_le hcount.ge
      rw [htake] at hterminated hfound
      exact ⟨hterminated, hcount ▸ hshort, (Except.ok.inj hfound).symm⟩

/-- A uniform read has the outcome everywhere that it has somewhere. -/
theorem Uniform.finishes_of_run {read : Read α} (h : Uniform read) {input : Bytes}
    {cursor after : Cursor} {a : α} (hinside : cursor.Inside input)
    (hrun : read input cursor = .ok a after) :
    Finishes read cursor.depth (cursor.view input) (.ok a) := by
  obtain ⟨outcome, hfinishes⟩ := (h cursor.depth (cursor.view input)).finishes
  cases outcome with
  | ok b =>
      obtain ⟨_, hrun', -⟩ := hfinishes input cursor hinside rfl rfl
      rw [hrun] at hrun'
      cases hrun'
      exact hfinishes
  | error e =>
      obtain ⟨_, hrun'⟩ := hfinishes input cursor hinside rfl rfl
      rw [hrun] at hrun'
      cases hrun'

theorem not_parses_throw {e : DecodeError} {a : α} :
    ¬ Parses (throw e : Read α) depth bytes (.ok a) :=
  fun h => h.of_yields (P := fun _ => False) (yields_throw e)

theorem Parses.of_expect {read : Read α} {found : Key} {expected : UInt8} {a : α}
    (h : Parses (do expect found expected; read) depth bytes (.ok a)) :
    found.wireType = expected ∧ Parses read depth bytes (.ok a) := by
  unfold expect at h
  split at h
  next hexpected => exact ⟨hexpected, h⟩
  next => exact absurd h not_parses_throw

/-- What is read is the image of one value only. -/
theorem Parses.of_map {read : Read α} {f : α → β} (hf : f.Injective) {b : β}
    (h : Parses (f <$> read) depth bytes (.ok b)) :
    ∃ a, b = f a ∧ Parses read depth bytes (.ok a) := by
  have himage : (f <$> read).Yields fun b => ∃ a, b = f a :=
    (yields_trivial read).map fun a _ => ⟨a, rfl⟩
  obtain ⟨a, rfl⟩ := h.of_yields himage
  refine ⟨a, rfl, ?_⟩
  intro input cursor rest hinside hdepth hview
  obtain ⟨other, hrun, heq⟩ := map_eq_ok.mp (h input cursor rest hinside hdepth hview)
  rwa [hf heq] at hrun

end Read

/-- A key that is read is spelled by the bytes that it is read from, and has a number. -/
theorem Key.spelledBy_of_parses {found : Key} {groups : List UInt8} {depth : Nat}
    (h : Read.Parses Read.key depth groups (.ok (some found))) :
    found.SpelledBy groups ∧ found.number ≠ 0 := by
  have hword : Read.Parses (Read.keyOfWord <$> Read.varint32) depth groups (.ok (some found)) := by
    intro input cursor rest hinside hdepth hview
    have hkey := Read.ending_of_ok (h input cursor rest hinside hdepth hview)
    rw [Read.ending_key] at hkey
    split at hkey
    · cases hkey
    · exact Read.ending_eq_ok.mp hkey
  obtain ⟨hterminated, hshort, hfound⟩ :=
    (Read.takesVarint_varint32.map Read.keyOfWord).terminated hword
  simp only [Function.comp_apply, Read.keyOfWord] at hfound
  split at hfound
  next => cases hfound
  next hnumber =>
    obtain rfl := Option.some.inj hfound
    exact ⟨⟨hterminated, hshort, rfl⟩, hnumber⟩

end WireCodec
