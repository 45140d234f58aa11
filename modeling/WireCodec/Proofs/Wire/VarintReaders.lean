import Mathlib.Algebra.BigOperators.Ring.Finset
import Mathlib.Data.Nat.ModEq
import Mathlib.Data.UInt
import Mathlib.Tactic.Ring
import WireCodec.Proofs.Wire.Discipline

/-! # What readers make of a leading varint

A varint takes the bytes up to the first one that says no more follow, if that
is among the first ten. The readers of 32 and 64 bits take the same bytes and
keep the low bits of the number; what is made of these words cannot tell
padded or congruent numbers apart. The reader of 64 bits may as well collect
two halves of 32 bits.
-/

namespace WireCodec

namespace Varint

/-- What stands at the start of some bytes, and how many of them are taken: the
number of a varint of at most ten bytes, or the reason why there is none. -/
def leading (bytes : List UInt8) : Except DecodeError Nat × Nat :=
  match (bytes.take 10).findIdx? (fun byte => byte.toNat < 0x80) with
  | some k =>
    (.ok (∑ i ∈ Finset.range (k + 1), (bytes.getD i 0).toNat % 128 * 2 ^ (7 * i)), k + 1)
  | none =>
    if 10 ≤ bytes.length then (.error .malformedVarint, 10) else (.error .unexpectedEof, bytes.length)

theorem continues_eq (byte : UInt8) : continues byte = !decide (byte.toNat < 0x80) := by
  simp only [continues, Bool.eq_not_iff, ne_eq, decide_eq_decide]
  omega

theorem value_take (bytes : List UInt8) {count : Nat} (hcount : count ≤ bytes.length) :
    value (bytes.take count) =
      ∑ i ∈ Finset.range count, (bytes.getD i 0).toNat % 128 * 2 ^ (7 * i) := by
  induction bytes generalizing count with
  | nil =>
      obtain rfl := Nat.le_zero.mp hcount
      rfl
  | cons byte rest ih =>
      cases count with
      | zero => rfl
      | succ count =>
          have hplace : ∀ i, (rest.getD i 0).toNat % 128 * 2 ^ (7 * (i + 1)) =
              128 * ((rest.getD i 0).toNat % 128 * 2 ^ (7 * i)) := by
            intro i
            rw [Nat.mul_succ, Nat.pow_add]
            ring
          rw [List.take_succ_cons, value, ih (Nat.le_of_succ_le_succ hcount),
            Finset.sum_range_succ', Nat.add_comm]
          simp only [List.getD_cons_succ, List.getD_cons_zero, Nat.mul_zero, Nat.pow_zero,
            Nat.mul_one, hplace, Finset.mul_sum]

theorem terminated_take {bytes : List UInt8} {k : Nat}
    (h : bytes.findIdx? (fun byte => byte.toNat < 0x80) = some k) :
    Terminated (bytes.take (k + 1)) := by
  induction bytes generalizing k with
  | nil => cases h
  | cons byte rest ih =>
      rw [List.findIdx?_cons] at h
      cases hlast : decide (byte.toNat < 0x80) with
      | true =>
          rw [hlast, if_pos rfl] at h
          obtain rfl := Option.some.inj h
          exact .last (by rw [continues_eq, hlast, Bool.not_true])
      | false =>
          rw [hlast, if_neg Bool.false_ne_true] at h
          obtain ⟨k, hk, rfl⟩ := Option.map_eq_some_iff.mp h
          exact .more (by rw [continues_eq, hlast, Bool.not_false]) (ih hk)

/-- A varint that is found is a varint of at most ten bytes, and its number. -/
theorem leading_of_findIdx? {bytes : List UInt8} {k : Nat}
    (h : (bytes.take 10).findIdx? (fun byte => byte.toNat < 0x80) = some k) :
    k + 1 ≤ 10 ∧ k + 1 ≤ bytes.length ∧ Terminated (bytes.take (k + 1)) ∧
      leading bytes = (.ok (value (bytes.take (k + 1))), k + 1) := by
  have hk : k < (bytes.take 10).length := by
    obtain ⟨hk, -⟩ := List.findIdx?_eq_some_iff_getElem.mp h
    exact hk
  rw [List.length_take] at hk
  have hterminated := terminated_take h
  rw [List.take_take, Nat.min_eq_left (by omega)] at hterminated
  refine ⟨by omega, by omega, hterminated, ?_⟩
  rw [leading, h, value_take bytes (by omega)]

end Varint

/-- The scalars read from the low 32 bits of a varint. -/
def ScalarType.varints32 : List ScalarType := [.int32, .uint32, .sint32]

/-- The scalars read from the low 64 bits of a varint. -/
def ScalarType.varints64 : List ScalarType := [.int64, .uint64, .sint64, .bool]

namespace Read

variable {α β W : Type} {input : Bytes} {cursor : Cursor}

theorem byte_of_view_nil (hinside : cursor.Inside input) (hview : cursor.view input = []) :
    byte input cursor = .error .unexpectedEof cursor := by
  have hlength := hinside.length_view
  rw [hview, List.length_nil, Cursor.remaining] at hlength
  unfold byte
  rw [dif_neg (by omega)]

section Groups

variable {groups : Nat → Nat → W → Read W} (hgroups : CollectsGroups groups)
include hgroups

/-- A reader that collects groups fails after as many as it takes, or at the
limit, if all of them say that more follow. -/
theorem ending_of_continues (left done : Nat) (word : W) (hinside : cursor.Inside input)
    (hmore : ∀ group ∈ (cursor.view input).take left, Varint.continues group = true) :
    (groups left done word).ending input cursor =
      if left ≤ (cursor.view input).length then (.error .malformedVarint, cursor.forward left)
      else (.error .unexpectedEof, cursor.forward (cursor.view input).length) := by
  induction left generalizing done word cursor with
  | zero =>
      rw [hgroups.zero, if_pos (Nat.zero_le _)]
      rfl
  | succ left ih =>
      obtain ⟨collect, hstep⟩ := hgroups.succ left done word
      rw [hstep, ending_bind]
      cases hview : cursor.view input with
      | nil =>
          rw [ending_of_error (byte_of_view_nil hinside hview)]
          rfl
      | cons group rest =>
          rw [hview, List.take_succ_cons, List.forall_mem_cons] at hmore
          have hview : cursor.view input = [group] ++ rest := hview
          have hbyte := parses_byte group input cursor rest hinside rfl hview
          have hrest := Cursor.view_forward hview
          have hnext := ih (done + 1) (collect group) (hinside.forward hview)
            (hrest.symm ▸ hmore.2)
          rw [ending_of_ok hbyte]
          dsimp only
          rw [if_pos hmore.1, hnext, hrest, Cursor.forward_forward, Cursor.forward_forward]
          simp only [List.length_cons, List.length_nil, Nat.zero_add, Nat.add_comm 1,
            Nat.add_le_add_iff_right]

/-- A reader that collects ten groups, and reads varints of as many, finds the
leading varint. -/
theorem ending_groups {word : W} {f : Nat → W}
    (hparses : ∀ depth bytes, Varint.Terminated bytes → bytes.length ≤ 10 →
      Parses (groups 10 0 word) depth bytes (.ok (f (Varint.value bytes))))
    (hinside : cursor.Inside input) :
    let found := Varint.leading (cursor.view input)
    (groups 10 0 word).ending input cursor = (found.1.map f, cursor.forward found.2) := by
  cases hfind : ((cursor.view input).take 10).findIdx? (fun byte => byte.toNat < 0x80) with
  | some k =>
      obtain ⟨hshort, hlength, hterminated, hleading⟩ := Varint.leading_of_findIdx? hfind
      have htake := List.length_take_of_le hlength
      have h := hparses cursor.depth _ hterminated (by omega) input cursor _ hinside rfl
        (List.take_append_drop (k + 1) _).symm
      rw [htake] at h
      rw [hleading]
      exact ending_of_ok h
  | none =>
      have hmore : ∀ group ∈ (cursor.view input).take 10, Varint.continues group = true := by
        intro group hgroup
        have h := List.findIdx?_eq_none_iff.mp hfind group hgroup
        rw [Varint.continues_eq, h, Bool.not_false]
      rw [ending_of_continues hgroups 10 0 word hinside hmore, Varint.leading, hfind]
      dsimp only
      split <;> rfl

end Groups

theorem ending_varint64 (hinside : cursor.Inside input) :
    let found := Varint.leading (cursor.view input)
    varint64.ending input cursor = (found.1.map UInt64.ofNat, cursor.forward found.2) :=
  ending_groups collectsGroups_varint64 (fun depth _ => parses_varint64 depth) hinside

theorem ending_varint32 (hinside : cursor.Inside input) :
    let found := Varint.leading (cursor.view input)
    varint32.ending input cursor = (found.1.map UInt32.ofNat, cursor.forward found.2) :=
  ending_groups collectsGroups_varint32 (fun depth _ => parses_varint32 depth) hinside

/-! ## Readers of words -/

/-- The read takes what a varint takes, fails if there is none, and makes of its
number what it makes of all that are congruent to it. -/
def ReadsVarint (modulus : Nat) (read : Read α) : Prop :=
  ∃ f : Nat → α, (∀ n, f (n % modulus) = f n) ∧
    ∀ (input : Bytes) (cursor : Cursor), cursor.Inside input →
      let found := Varint.leading (cursor.view input)
      read.ending input cursor = (found.1.map f, cursor.forward found.2)

theorem ReadsVarint.ending_snd {modulus : Nat} {read : Read α} (h : ReadsVarint modulus read)
    (hinside : cursor.Inside input) :
    (read.ending input cursor).2 = cursor.forward (Varint.leading (cursor.view input)).2 := by
  obtain ⟨f, -, hread⟩ := h
  rw [hread input cursor hinside]

/-- What comes of the read depends on the failure or the number modulo the modulus alone. -/
theorem ReadsVarint.ending_fst {modulus : Nat} {read : Read α} (h : ReadsVarint modulus read)
    {other : Bytes} {place : Cursor} (hinside : cursor.Inside input) (hplace : place.Inside other)
    (hsame : (Varint.leading (cursor.view input)).1.map (· % modulus) =
      (Varint.leading (place.view other)).1.map (· % modulus)) :
    (read.ending input cursor).1 = (read.ending other place).1 := by
  obtain ⟨f, hmod, hread⟩ := h
  have hf : ∀ found : Except DecodeError Nat, found.map f = (found.map (· % modulus)).map f := by
    intro found
    cases found with
    | error e => rfl
    | ok n => exact congrArg Except.ok (hmod n).symm
  rw [hread input cursor hinside, hread other place hplace]
  dsimp only
  rw [hf, hsame, ← hf]

theorem ReadsVarint.map {modulus : Nat} {read : Read α} (h : ReadsVarint modulus read)
    (g : α → β) : ReadsVarint modulus (g <$> read) := by
  obtain ⟨f, hmod, hread⟩ := h
  refine ⟨g ∘ f, fun n => congrArg g (hmod n), ?_⟩
  intro input cursor hinside
  dsimp only
  rw [ending_map, hread input cursor hinside]
  cases (Varint.leading (cursor.view input)).1 <;> rfl

theorem readsVarint_varint32 : ReadsVarint (2 ^ 32) varint32 := by
  refine ⟨UInt32.ofNat, fun n => ?_, fun input cursor => ending_varint32⟩
  exact UInt32.ofNat_mod_size

theorem readsVarint_varint64 : ReadsVarint (2 ^ 64) varint64 := by
  refine ⟨UInt64.ofNat, fun n => ?_, fun input cursor => ending_varint64⟩
  exact UInt64.ofNat_mod_size

/-- The low half of a word of 64 bits is the word of 32 bits. -/
theorem readsVarint_low (g : UInt32 → α) :
    ReadsVarint (2 ^ 32) ((fun word => g word.toUInt32) <$> varint64) := by
  refine ⟨fun n => g (UInt32.ofNat n), fun n => congrArg g UInt32.ofNat_mod_size, ?_⟩
  intro input cursor hinside
  dsimp only
  rw [ending_map, ending_varint64 hinside]
  cases (Varint.leading (cursor.view input)).1 with
  | error e => rfl
  | ok n => simp only [Except.map, UInt64.toUInt32_ofNat']

theorem readsVarint_scalar32 (type : ScalarType) (htype : type ∈ ScalarType.varints32) :
    ReadsVarint (2 ^ 32) (scalar type) := by
  simp only [ScalarType.varints32, List.mem_cons, List.not_mem_nil, or_false] at htype
  obtain rfl | rfl | rfl := htype
  · exact readsVarint_low UInt32.toInt32
  · exact readsVarint_varint32
  · exact readsVarint_varint32.map Zigzag.decode32

theorem readsVarint_scalar64 (type : ScalarType) (htype : type ∈ ScalarType.varints64) :
    ReadsVarint (2 ^ 64) (scalar type) := by
  simp only [ScalarType.varints64, List.mem_cons, List.not_mem_nil, or_false] at htype
  obtain rfl | rfl | rfl | rfl := htype
  · exact readsVarint_varint64.map UInt64.toInt64
  · exact readsVarint_varint64
  · exact readsVarint_varint64.map Zigzag.decode64
  · exact readsVarint_varint64.map (· != 0)

/-- The key that a word is, unless its number is zero. -/
def keyOfWord (word : UInt32) : Option Key :=
  let found := Key.ofWord word
  if found.number = 0 then none else some found

theorem ending_key (input : Bytes) (cursor : Cursor) :
    key.ending input cursor =
      if cursor.atEnd then (.ok none, cursor) else (keyOfWord <$> varint32).ending input cursor := by
  have hatEnd : atEnd.ending input cursor = (.ok cursor.atEnd, cursor) := rfl
  rw [key, ending_bind, hatEnd]
  cases cursor.atEnd with
  | true => rfl
  | false => rfl

theorem leading_of_atEnd (hinside : cursor.Inside input) (hend : cursor.atEnd = true) :
    Varint.leading (cursor.view input) = (.error .unexpectedEof, 0) := by
  have hview : cursor.view input = [] := by
    rwa [hinside.atEnd_eq, List.isEmpty_iff] at hend
  rw [hview]
  rfl

end Read

/-! ## Words in halves -/

namespace Varint

/-- Bits that stay in the low half. -/
theorem or_low {shift : Nat} (hshift : shift ≤ 25) (low : UInt32) {bits : UInt8}
    (hbits : bits.toNat < 128) :
    (low ||| (bits.toUInt32 <<< UInt32.ofNat shift)).toUInt64 =
      low.toUInt64 ||| (bits.toUInt64 <<< UInt64.ofNat shift) := by
  have hlt : bits.toNat <<< shift < 2 ^ 32 := by
    calc bits.toNat <<< shift = bits.toNat * 2 ^ shift := Nat.shiftLeft_eq _ _
      _ < 2 ^ 7 * 2 ^ shift := Nat.mul_lt_mul_of_pos_right hbits (Nat.two_pow_pos _)
      _ = 2 ^ (7 + shift) := (Nat.pow_add _ _ _).symm
      _ ≤ 2 ^ 32 := Nat.pow_le_pow_right (by decide) (by omega)
  have hmod32 : shift % 2 ^ 32 % 32 = shift := by omega
  have hmod64 : shift % 2 ^ 64 % 64 = shift := by omega
  apply UInt64.toNat_inj.mp
  simp only [UInt32.toNat_toUInt64, UInt32.toNat_or, UInt64.toNat_or, UInt32.toNat_shiftLeft,
    UInt64.toNat_shiftLeft, UInt8.toNat_toUInt32, UInt8.toNat_toUInt64, UInt32.toNat_ofNat',
    UInt64.toNat_ofNat', hmod32, hmod64]
  rw [Nat.mod_eq_of_lt hlt, Nat.mod_eq_of_lt (Nat.lt_trans hlt (by decide))]

/-- Bits that start in the high half; those beyond it are lost either way. -/
theorem or_high {shift : Nat} (hshift : shift < 32) (high : UInt32) (bits : UInt8) :
    (high ||| (bits.toUInt32 <<< UInt32.ofNat shift)).toUInt64 <<< 32 =
      (high.toUInt64 <<< 32) ||| (bits.toUInt64 <<< UInt64.ofNat (shift + 32)) := by
  have hmod32 : shift % 2 ^ 32 % 32 = shift := by omega
  have hmod64 : (shift + 32) % 2 ^ 64 % 64 = shift + 32 := by omega
  have hword : (32 : UInt64).toNat % 64 = 32 := rfl
  apply UInt64.toNat_inj.mp
  apply Nat.eq_of_testBit_eq
  intro i
  have hsub : i - 32 - shift = i - (shift + 32) := by omega
  simp only [UInt32.toNat_toUInt64, UInt32.toNat_or, UInt64.toNat_or, UInt32.toNat_shiftLeft,
    UInt64.toNat_shiftLeft, UInt8.toNat_toUInt32, UInt8.toNat_toUInt64, UInt32.toNat_ofNat',
    UInt64.toNat_ofNat', hmod32, hmod64, hword, Nat.testBit_or, Nat.testBit_mod_two_pow,
    Nat.testBit_shiftLeft, hsub]
  generalize high.toNat.testBit (i - 32) = inHigh
  generalize bits.toNat.testBit (i - (shift + 32)) = inBits
  grind

/-- Bits of which four stay in the low half and the others are in the high one. -/
theorem or_both (low high : UInt32) (bits : UInt8) :
    ((high ||| (bits.toUInt32 >>> 4)).toUInt64 <<< 32) |||
        (low ||| (bits.toUInt32 <<< 28)).toUInt64 =
      ((high.toUInt64 <<< 32) ||| low.toUInt64) ||| (bits.toUInt64 <<< 28) := by
  have hfour : (4 : UInt32).toNat % 32 = 4 := rfl
  have hlow : (28 : UInt32).toNat % 32 = 28 := rfl
  have hboth : (28 : UInt64).toNat % 64 = 28 := rfl
  have hword : (32 : UInt64).toNat % 64 = 32 := rfl
  apply UInt64.toNat_inj.mp
  apply Nat.eq_of_testBit_eq
  intro i
  simp only [UInt32.toNat_toUInt64, UInt32.toNat_or, UInt64.toNat_or, UInt32.toNat_shiftLeft,
    UInt32.toNat_shiftRight, UInt64.toNat_shiftLeft, UInt8.toNat_toUInt32, UInt8.toNat_toUInt64,
    hfour, hlow, hboth, hword, Nat.testBit_or, Nat.testBit_mod_two_pow, Nat.testBit_shiftLeft,
    Nat.testBit_shiftRight]
  generalize high.toNat.testBit (i - 32) = inHigh
  generalize low.toNat.testBit i = inLow
  by_cases hi : 32 ≤ i
  · have hsub : 4 + (i - 32) = i - 28 := by omega
    rw [hsub]
    generalize bits.toNat.testBit (i - 28) = inBits
    grind
  · generalize bits.toNat.testBit (i - 28) = inBits
    grind

end Varint

namespace Read

/-- The groups of a 64-bit varint that come after `done` groups, at most `left`
of them, collected in a low and a high half; the fifth group belongs to both. -/
def varint64Halves : (left done : Nat) → (low high : UInt32) → Read UInt64
  | 0, _, _, _ => throw .malformedVarint
  | left + 1, done, low, high => do
    let group ← byte
    let bits := (group &&& 0x7F).toUInt32
    let low := if done < 5 then low ||| (bits <<< UInt32.ofNat (7 * done)) else low
    let high :=
      if done < 4 then high
      else if done = 4 then high ||| (bits >>> 4)
      else high ||| (bits <<< UInt32.ofNat (7 * (done - 5) + 3))
    if Varint.continues group then varint64Halves left (done + 1) low high
    else return (high.toUInt64 <<< 32) ||| low.toUInt64

/-- One more group for the halves is one more group for the word they make. -/
theorem join_halves {done : Nat} (hdone : done < 10) (low high : UInt32) {bits : UInt8}
    (hbits : bits.toNat < 128) :
    let low' := if done < 5 then low ||| (bits.toUInt32 <<< UInt32.ofNat (7 * done)) else low
    let high' :=
      if done < 4 then high
      else if done = 4 then high ||| (bits.toUInt32 >>> 4)
      else high ||| (bits.toUInt32 <<< UInt32.ofNat (7 * (done - 5) + 3))
    (high'.toUInt64 <<< 32) ||| low'.toUInt64 =
      ((high.toUInt64 <<< 32) ||| low.toUInt64) ||| (bits.toUInt64 <<< UInt64.ofNat (7 * done)) := by
  dsimp only
  -- the group lies in the low half, in both, or in the high half
  obtain hlow | rfl | hhigh := Nat.lt_trichotomy done 4
  · rw [if_pos hlow, if_pos (by omega), Varint.or_low (by omega) low hbits, UInt64.or_assoc]
  · exact Varint.or_both low high bits
  · have hshift : 7 * done = 7 * (done - 5) + 3 + 32 := by omega
    rw [if_neg (by omega), if_neg (by omega), if_neg (by omega), Varint.or_high (by omega), hshift,
      UInt64.or_assoc, UInt64.or_assoc, UInt64.or_comm low.toUInt64]

theorem varint64Halves_eq {left done : Nat} (hleft : left + done ≤ 10) (low high : UInt32) :
    varint64Halves left done low high =
      varint64Groups left done ((high.toUInt64 <<< 32) ||| low.toUInt64) := by
  induction left generalizing done low high with
  | zero => rfl
  | succ left ih =>
      rw [varint64Halves, varint64Groups]
      refine bind_congr fun group => ?_
      have hbits : (group &&& 0x7F).toNat < 128 := by
        rw [Varint.toNat_group]
        exact Nat.mod_lt _ (by decide)
      dsimp only
      rw [ih (by omega), join_halves (by omega) low high hbits]

theorem varint64Halves_eq_varint64 : varint64Halves 10 0 0 0 = varint64 := by
  have hzero : ((0 : UInt32).toUInt64 <<< 32) ||| (0 : UInt32).toUInt64 = 0 := by decide
  have h := varint64Halves_eq (by decide : 10 + 0 ≤ 10) 0 0
  rwa [hzero] at h

end Read

/-- A leading varint is taken by all readers alike, up to the first byte below
`0x80` among ten; they give its number modulo the word, or fail for want of
such a byte after ten bytes or at the limit. The reader that collects halves is
the same reader. Where the numbers are congruent modulo a word, or the failures
the same, so is what is read as a key or as a scalar of that word. -/
theorem varint_readers :
    Read.varint64Halves 10 0 0 0 = Read.varint64 ∧
    ∀ (input : Bytes) (cursor : Cursor), cursor.Inside input →
      let found := Varint.leading (cursor.view input)
      Read.varint64.ending input cursor =
        (found.1.map UInt64.ofNat, cursor.forward found.2) ∧
      Read.varint32.ending input cursor =
        (found.1.map UInt32.ofNat, cursor.forward found.2) ∧
      (Read.key.ending input cursor).2 = cursor.forward found.2 ∧
      (∀ type ∈ ScalarType.varints32 ++ ScalarType.varints64,
        ((Read.scalar type).ending input cursor).2 = cursor.forward found.2) ∧
      ∀ (other : Bytes) (place : Cursor), place.Inside other →
        let again := Varint.leading (place.view other)
        (found.1.map (· % 2 ^ 32) = again.1.map (· % 2 ^ 32) →
          (cursor.atEnd = place.atEnd →
            (Read.key.ending input cursor).1 = (Read.key.ending other place).1) ∧
          ∀ type ∈ ScalarType.varints32,
            ((Read.scalar type).ending input cursor).1 =
              ((Read.scalar type).ending other place).1) ∧
        (found.1.map (· % 2 ^ 64) = again.1.map (· % 2 ^ 64) →
          ∀ type ∈ ScalarType.varints64,
            ((Read.scalar type).ending input cursor).1 =
              ((Read.scalar type).ending other place).1) := by
  refine ⟨Read.varint64Halves_eq_varint64, ?_⟩
  have hkey := Read.readsVarint_varint32.map Read.keyOfWord
  intro input cursor hinside
  refine ⟨Read.ending_varint64 hinside, Read.ending_varint32 hinside, ?_, ?_, ?_⟩
  · rw [Read.ending_key]
    split
    next hend => rw [Read.leading_of_atEnd hinside hend, Cursor.forward_zero]
    next => exact hkey.ending_snd hinside
  · intro type htype
    obtain hnarrow | hwide := List.mem_append.mp htype
    · exact (Read.readsVarint_scalar32 type hnarrow).ending_snd hinside
    · exact (Read.readsVarint_scalar64 type hwide).ending_snd hinside
  · intro other place hplace
    refine ⟨fun hsame => ⟨fun hend => ?_, fun type htype => ?_⟩, fun hsame type htype => ?_⟩
    · rw [Read.ending_key, Read.ending_key, hend]
      split
      next => rfl
      next => exact hkey.ending_fst hinside hplace hsame
    · exact (Read.readsVarint_scalar32 type htype).ending_fst hinside hplace hsame
    · exact (Read.readsVarint_scalar64 type htype).ending_fst hinside hplace hsame

/-- Thirteen, padded and with a bit beyond 32 bits: not the same words of 64
bits, but the same keys. -/
theorem varint_readers_thirteen :
    let padded : Bytes := #[0x8D, 0x80, 0x00]
    let beyond : Bytes := #[0x8D, 0x80, 0x80, 0x80, 0x10]
    Read.varint64.ending padded (.start padded) = (.ok 13, ⟨3, 3, 0⟩) ∧
      Read.varint64.ending beyond (.start beyond) = (.ok (13 + 2 ^ 32), ⟨5, 5, 0⟩) ∧
      (Read.key.ending padded (.start padded)).1 = (Read.key.ending beyond (.start beyond)).1 := by
  intro padded beyond
  have hpadded : Varint.leading ((Cursor.start padded).view padded) = (.ok 13, 3) := by decide
  have hbeyond : Varint.leading ((Cursor.start beyond).view beyond) = (.ok (13 + 2 ^ 32), 5) := by
    decide
  obtain ⟨-, hreaders⟩ := varint_readers
  obtain ⟨hword, -, -, -, hsame⟩ := hreaders padded (.start padded) (Cursor.inside_start padded)
  obtain ⟨hword', -⟩ := hreaders beyond (.start beyond) (Cursor.inside_start beyond)
  obtain ⟨hnarrow, -⟩ := hsame beyond (.start beyond) (Cursor.inside_start beyond)
  rw [hpadded] at hword hnarrow
  rw [hbeyond] at hword' hnarrow
  obtain ⟨hkey, -⟩ := hnarrow rfl
  exact ⟨hword, hword', hkey rfl⟩

end WireCodec
