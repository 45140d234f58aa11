import Mathlib.Data.Nat.Size
import WireCodec.Proofs.Wire.VarintValue

/-! # Shortest varints

The writers emit the shortest varint of a number: as many groups as its bits
need, and one for zero. The writer of 64 bits may as well cut a word into three
parts and decide by the highest of them how many groups there are.
-/

namespace WireCodec

namespace Varint

theorem Terminated.length_pos {groups : List UInt8} (h : Terminated groups) :
    0 < groups.length := by
  cases h <;> simp

theorem value_lt (groups : List UInt8) : value groups < 128 ^ groups.length := by
  induction groups with
  | nil => exact Nat.one_pos
  | cons group rest ih =>
      rw [value, List.length_cons, Nat.pow_succ']
      omega

/-- Groups that are as many and stand for the same number are the same. -/
theorem Terminated.eq_of_value {groups other : List UInt8} (hgroups : Terminated groups)
    (hother : Terminated other) (hlength : groups.length = other.length)
    (hvalue : value groups = value other) : groups = other := by
  induction hgroups generalizing other with
  | @last group hlast =>
      cases hother with
      | @last group' hlast' =>
          simp only [continues, decide_eq_false_iff_not, value] at hlast hlast' hvalue
          rw [UInt8.toNat_inj.mp (by omega : group.toNat = group'.toNat)]
      | more hmore hrest => exact absurd (Nat.succ.inj hlength) hrest.length_pos.ne
  | @more group rest hmore hrest ih =>
      cases hother with
      | last hlast => exact absurd (Nat.succ.inj hlength) hrest.length_pos.ne'
      | @more group' rest' hmore' hrest' =>
          have hlt := group.toNat_lt
          have hlt' := group'.toNat_lt
          simp only [continues, decide_eq_true_eq, value] at hmore hmore' hvalue
          rw [UInt8.toNat_inj.mp (by omega : group.toNat = group'.toNat),
            ih hrest' (Nat.succ.inj hlength) (by omega)]

theorem length_encode_le_iff {count n : Nat} (hcount : 0 < count) :
    (encode n).length ≤ count ↔ n < 128 ^ count := by
  refine ⟨fun h => ?_, length_encode_le hcount⟩
  have hlt := value_lt (encode n)
  rw [value_encode] at hlt
  exact Nat.lt_of_lt_of_le hlt (Nat.pow_le_pow_right (by decide) h)

/-- A form of a number that no other has fewer bytes than: seven bits of the
number in each byte, and the high bit in all bytes but the last. -/
structure Shortest (n : Nat) (form : List UInt8) : Prop where
  terminated : Terminated form
  value_eq : value form = n
  length_eq : form.length = if n = 0 then 1 else (n.size + 6) / 7
  length_le : ∀ other, Terminated other → value other = n → form.length ≤ other.length

theorem length_encode (n : Nat) :
    (encode n).length = if n = 0 then 1 else (n.size + 6) / 7 := by
  split
  next hzero => rw [hzero, encode_of_lt (by decide), List.length_singleton]
  next hne =>
    have hsize : 0 < n.size := Nat.size_pos.mpr (Nat.pos_of_ne_zero hne)
    have hcount : ∀ count, 0 < count → ((encode n).length ≤ count ↔ n.size ≤ 7 * count) := by
      intro count hpos
      rw [length_encode_le_iff hpos, Nat.size_le, Nat.pow_mul]
    have hpos := List.length_pos_iff.mpr (encode_ne_nil n)
    have hupper := (hcount ((n.size + 6) / 7) (by omega)).mpr (by omega)
    have hlower := (hcount (encode n).length hpos).mp (Nat.le_refl _)
    omega

theorem shortest_encode (n : Nat) : Shortest n (encode n) where
  terminated := terminated_encode n
  value_eq := value_encode n
  length_eq := length_encode n
  length_le := by
    rintro other hother rfl
    exact length_encode_le hother.length_pos (value_lt other)

/-! ## Words in three parts -/

/-- A word as parts of 28, 28 and eight bits; the middle one lies in both halves. -/
def parts (word : UInt64) : UInt32 × UInt32 × UInt32 :=
  let low := word.toUInt32
  let high := (word >>> 32).toUInt32
  (low &&& 0x0FFFFFFF, ((low >>> 28) ||| (high <<< 4)) &&& 0x0FFFFFFF, high >>> 24)

/-- How many groups three parts need; the highest part that is not zero decides. -/
def groupCount (part0 part1 part2 : UInt32) : Nat :=
  if part2 = 0 then
    if part1 = 0 then
      if part0 < 0x4000 then
        if part0 < 0x80 then 1 else 2
      else if part0 < 0x200000 then 3
      else 4
    else if part1 < 0x4000 then
      if part1 < 0x80 then 5 else 6
    else if part1 < 0x200000 then 7
    else 8
  else if part2 < 0x80 then 9
  else 10

/-- Marks all groups, and takes the mark off the last one. -/
def mark (groups : List UInt8) : List UInt8 :=
  (groups.map (· ||| 0x80)).modify (groups.length - 1) (· &&& 0x7F)

/-- The ten groups of three parts, of which the last may be zero. -/
def partGroups (part0 part1 part2 : UInt32) : List UInt8 :=
  [part0, part0 >>> 7, part0 >>> 14, part0 >>> 21, part1, part1 >>> 7, part1 >>> 14, part1 >>> 21,
    part2, part2 >>> 7].map UInt32.toUInt8

/-- The varint of a word by way of its parts. -/
def encodeParts (word : UInt64) : List UInt8 :=
  let (part0, part1, part2) := parts word
  mark ((partGroups part0 part1 part2).take (groupCount part0 part1 part2))

theorem toNat_mark (group : UInt8) : (group ||| 0x80).toNat % 128 = group.toNat % 128 := by
  have h := Nat.or_mod_two_pow (a := group.toNat) (b := 128) (n := 7)
  rwa [Nat.or_zero] at h

theorem continues_mark (group : UInt8) : continues (group ||| 0x80) = true := by
  simp only [continues, UInt8.toNat_or, decide_eq_true_eq]
  exact Nat.right_le_or

theorem mark_cons {group : UInt8} {rest : List UInt8} (hrest : rest ≠ []) :
    mark (group :: rest) = (group ||| 0x80) :: mark rest := by
  obtain ⟨count, hcount⟩ := Nat.exists_eq_add_one_of_ne_zero (List.length_pos_iff.mpr hrest).ne'
  simp only [mark, List.map_cons, List.length_cons, hcount, Nat.add_sub_cancel,
    List.modify_succ_cons]

/-- Marked groups are a varint of the same number and as many bytes. -/
theorem mark_spec {groups : List UInt8} (hne : groups ≠ []) :
    Terminated (mark groups) ∧ value (mark groups) = value groups ∧
      (mark groups).length = groups.length := by
  refine ⟨?_, ?_, by simp [mark]⟩
  · induction groups with
    | nil => exact absurd rfl hne
    | cons group rest ih =>
        cases rest with
        | nil =>
            refine .last ?_
            simp only [continues, toNat_group, decide_eq_false_iff_not]
            omega
        | cons next more =>
            rw [mark_cons (List.cons_ne_nil next more)]
            exact .more (continues_mark group) (ih (List.cons_ne_nil next more))
  · induction groups with
    | nil => rfl
    | cons group rest ih =>
        cases rest with
        | nil =>
            have h : (((group ||| 0x80) &&& 0x7F).toNat % 128) = group.toNat % 128 := by
              rw [toNat_group, Nat.mod_mod, toNat_mark]
            exact congrArg (· + 128 * value []) h
        | cons next more =>
            rw [mark_cons (List.cons_ne_nil next more), value, value, toNat_mark,
              ih (List.cons_ne_nil next more)]

theorem toNat_parts (word : UInt64) :
    (parts word).1.toNat = word.toNat % 2 ^ 28 ∧
      (parts word).2.1.toNat = word.toNat / 2 ^ 28 % 2 ^ 28 ∧
      (parts word).2.2.toNat = word.toNat / 2 ^ 56 := by
  have hword := word.toNat_lt
  have hlow : word.toUInt32.toNat = word.toNat % 2 ^ 32 := UInt64.toNat_toUInt32 word
  have hhigh : (word >>> 32).toUInt32.toNat = word.toNat / 2 ^ 32 := by
    rw [UInt64.toNat_toUInt32, UInt64.toNat_shiftRight, Nat.shiftRight_eq_div_pow]
    exact Nat.mod_eq_of_lt (by simpa using by omega)
  have hmask : ∀ part : UInt32, (part &&& 0x0FFFFFFF).toNat = part.toNat % 2 ^ 28 := fun part =>
    Nat.and_two_pow_sub_one_eq_mod part.toNat 28
  refine ⟨?_, ?_, ?_⟩
  · rw [parts, hmask, hlow]
    omega
  · -- the four high bits of the low half come below those of the high half
    have hbelow : (word.toUInt32 >>> 28).toNat = word.toNat / 2 ^ 28 % 2 ^ 4 := by
      rw [UInt32.toNat_shiftRight, hlow, Nat.shiftRight_eq_div_pow]
      simp only [UInt32.reduceToNat, Nat.reduceMod]
      omega
    have habove : ((word >>> 32).toUInt32 <<< 4).toNat =
        2 ^ 4 * (word.toNat / 2 ^ 32 % 2 ^ 28) := by
      rw [UInt32.toNat_shiftLeft, hhigh, Nat.shiftLeft_eq]
      simp only [UInt32.reduceToNat, Nat.reduceMod]
      omega
    have hor := Nat.two_pow_add_eq_or_of_lt (Nat.mod_lt (word.toNat / 2 ^ 28) (Nat.two_pow_pos 4))
      (word.toNat / 2 ^ 32 % 2 ^ 28)
    rw [parts, hmask, UInt32.toNat_or, hbelow, habove, Nat.or_comm, ← hor]
    omega
  · rw [parts, UInt32.toNat_shiftRight, hhigh, Nat.shiftRight_eq_div_pow]
    simp only [UInt32.reduceToNat, Nat.reduceMod]
    omega

theorem length_encode_eq {count n : Nat} (hlow : count = 0 ∨ 128 ^ count ≤ n)
    (hhigh : n < 128 ^ (count + 1)) : (encode n).length = count + 1 := by
  refine Nat.le_antisymm (length_encode_le (Nat.succ_pos count) hhigh) ?_
  obtain rfl | hlow := hlow
  · exact (terminated_encode n).length_pos
  · by_contra hless
    have hpos := (terminated_encode n).length_pos
    have hcount : 0 < count := by omega
    exact Nat.not_lt.mpr hlow ((length_encode_le_iff hcount).mp (by omega))

theorem groupCount_spec {part0 part1 part2 : UInt32} (h0 : part0.toNat < 2 ^ 28)
    (h1 : part1.toNat < 2 ^ 28) (h2 : part2.toNat < 2 ^ 8) :
    let n := part0.toNat + 2 ^ 28 * (part1.toNat + 2 ^ 28 * part2.toNat)
    groupCount part0 part1 part2 = (encode n).length := by
  intro n
  simp only [groupCount, UInt32.lt_iff_toNat_lt, ← UInt32.toNat_inj, UInt32.reduceToNat]
  split_ifs
  all_goals exact (length_encode_eq (by omega) (by omega)).symm

theorem value_partGroups {part0 part1 part2 : UInt32} (h0 : part0.toNat < 2 ^ 28)
    (h1 : part1.toNat < 2 ^ 28) (h2 : part2.toNat < 2 ^ 8) :
    value (partGroups part0 part1 part2) =
      part0.toNat + 2 ^ 28 * (part1.toNat + 2 ^ 28 * part2.toNat) := by
  have hshift : ∀ (part : UInt32) (shift : Nat), part.toNat >>> shift = part.toNat / 2 ^ shift :=
    fun part shift => Nat.shiftRight_eq_div_pow _ _
  simp only [partGroups, List.map_cons, List.map_nil, value, UInt32.toNat_toUInt8,
    UInt32.toNat_shiftRight, UInt32.reduceToNat, Nat.reduceMod, hshift]
  omega

theorem value_take_eq_mod (groups : List UInt8) (count : Nat) :
    value (groups.take count) = value groups % 128 ^ count := by
  induction groups generalizing count with
  | nil => rw [List.take_nil, value, Nat.zero_mod]
  | cons group rest ih =>
      cases count with
      | zero => rw [List.take_zero, value, Nat.pow_zero, Nat.mod_one]
      | succ count =>
          have hsplit := @Nat.mod_mul 128 (128 ^ count) (value (group :: rest))
          have hquotient : value (group :: rest) / 128 = value rest := by
            rw [value]
            omega
          have hrest : value (group :: rest) % 128 = group.toNat % 128 := by
            rw [value]
            omega
          rw [List.take_succ_cons, value, ih, Nat.pow_succ', hsplit, hquotient, hrest]

/-- Cutting a word into parts and taking its groups one after another come to
the same bytes. -/
theorem encodeParts_eq (word : UInt64) : encodeParts word = encode word.toNat := by
  obtain ⟨h0, h1, h2⟩ := toNat_parts word
  have hword := word.toNat_lt
  rw [encodeParts]
  generalize parts word = cut at *
  obtain ⟨part0, part1, part2⟩ := cut
  dsimp only at h0 h1 h2 ⊢
  have hvalue := @value_partGroups part0 part1 part2 (by omega) (by omega) (by omega)
  have hcount := @groupCount_spec part0 part1 part2 (by omega) (by omega) (by omega)
  have hnumber : part0.toNat + 2 ^ 28 * (part1.toNat + 2 ^ 28 * part2.toNat) = word.toNat := by
    omega
  dsimp only at hcount
  rw [hnumber] at hvalue hcount
  have hpos : 0 < (encode word.toNat).length := (terminated_encode _).length_pos
  have hten : (encode word.toNat).length ≤ 10 := length_encode_le (by decide) (by omega)
  have hlength : ((partGroups part0 part1 part2).take (groupCount part0 part1 part2)).length =
      (encode word.toNat).length := by
    rw [List.length_take, hcount]
    exact Nat.min_eq_left hten
  obtain ⟨hterminated, hmarked, hsame⟩ :=
    mark_spec (List.length_pos_iff.mp (hlength.symm ▸ hpos))
  refine hterminated.eq_of_value (terminated_encode _) (hsame.trans hlength) ?_
  have hfits : word.toNat < 128 ^ (encode word.toNat).length :=
    (length_encode_le_iff hpos).mp (Nat.le_refl _)
  rw [hmarked, value_take_eq_mod, hvalue, hcount, Nat.mod_eq_of_lt hfits, value_encode]

end Varint

end WireCodec
