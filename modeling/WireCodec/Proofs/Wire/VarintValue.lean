import Mathlib.Data.Nat.Bitwise
import WireCodec.Wire.Cursor

/-! # Values of varints

The number that a list of groups stands for, and what one more group does to
the words in which the readers collect it. The shortest varint of a number
stands for that number.
-/

namespace WireCodec

namespace Varint

/-- The number that groups stand for, the least significant group first. -/
def value : List UInt8 → Nat
  | [] => 0
  | group :: rest => group.toNat % 128 + 128 * value rest

/-- All groups but the last say that more follow. -/
inductive Terminated : List UInt8 → Prop
  | last {group : UInt8} : continues group = false → Terminated [group]
  | more {group : UInt8} {rest : List UInt8} :
      continues group = true → Terminated rest → Terminated (group :: rest)

theorem value_encode (n : Nat) : value (encode n) = n := by
  induction n using encode.induct with
  | case1 n hlt =>
      rw [encode_of_lt hlt]
      simp only [value, UInt8.toNat_ofNat']
      omega
  | case2 n hge ih =>
      rw [encode_of_le (by omega)]
      simp only [value, UInt8.toNat_ofNat', ih]
      omega

theorem terminated_encode (n : Nat) : Terminated (encode n) := by
  induction n using encode.induct with
  | case1 n hlt =>
      rw [encode_of_lt hlt]
      refine .last ?_
      simp only [continues, UInt8.toNat_ofNat', decide_eq_false_iff_not]
      omega
  | case2 n hge ih =>
      rw [encode_of_le (by omega)]
      refine .more ?_ ih
      simp only [continues, UInt8.toNat_ofNat', decide_eq_true_eq]
      omega

/-- A number of `count` groups of seven bits takes at most `count` bytes. -/
theorem length_encode_le {count n : Nat} (hcount : 0 < count) (h : n < 128 ^ count) :
    (encode n).length ≤ count := by
  induction count generalizing n with
  | zero => exact absurd hcount (Nat.lt_irrefl 0)
  | succ count ih =>
      by_cases hlt : n < 128
      · rw [encode_of_lt hlt]
        exact Nat.succ_le_succ (Nat.zero_le count)
      · rw [encode_of_le (by omega), List.length_cons]
        refine Nat.succ_le_succ (ih ?_ ?_)
        · refine Nat.pos_of_ne_zero ?_
          rintro rfl
          exact hlt h
        · rw [Nat.pow_succ'] at h
          exact Nat.div_lt_of_lt_mul h

theorem toNat_group (group : UInt8) : (group &&& 0x7F).toNat = group.toNat % 128 := by
  rw [UInt8.toNat_and]
  exact Nat.and_two_pow_sub_one_eq_mod group.toNat 7

/-- A group that is put above the bits of a word adds to it. -/
theorem toNat_or_shift32 {done : Nat} (hdone : done < 5) {word : UInt32}
    (hword : word.toNat < 2 ^ (7 * done)) (group : UInt8) :
    (word ||| ((group &&& 0x7F).toUInt32 <<< UInt32.ofNat (7 * done))).toNat =
      (word.toNat + 2 ^ (7 * done) * (group.toNat % 128)) % 2 ^ 32 := by
  have hshift : (UInt32.ofNat (7 * done)).toNat % 32 = 7 * done := by
    rw [UInt32.toNat_ofNat']
    omega
  have hbits : 2 ^ (7 * done) ≤ 2 ^ 32 := Nat.pow_le_pow_right (by decide) (by omega)
  rw [UInt32.toNat_or, UInt32.toNat_shiftLeft, hshift, UInt8.toNat_toUInt32, toNat_group]
  have hmod : word.toNat = word.toNat % 2 ^ 32 := (Nat.mod_eq_of_lt (by omega)).symm
  rw [hmod, ← Nat.or_mod_two_pow, ← hmod, Nat.or_comm, ← Nat.shiftLeft_add_eq_or_of_lt hword,
    Nat.shiftLeft_eq, Nat.mul_comm, Nat.add_comm]

theorem toNat_or_shift64 {done : Nat} (hdone : done < 10) {word : UInt64}
    (hword : word.toNat < 2 ^ (7 * done)) (group : UInt8) :
    (word ||| ((group &&& 0x7F).toUInt64 <<< UInt64.ofNat (7 * done))).toNat =
      (word.toNat + 2 ^ (7 * done) * (group.toNat % 128)) % 2 ^ 64 := by
  have hshift : (UInt64.ofNat (7 * done)).toNat % 64 = 7 * done := by
    rw [UInt64.toNat_ofNat']
    omega
  have hbits : 2 ^ (7 * done) ≤ 2 ^ 64 := Nat.pow_le_pow_right (by decide) (by omega)
  rw [UInt64.toNat_or, UInt64.toNat_shiftLeft, hshift, UInt8.toNat_toUInt64, toNat_group]
  have hmod : word.toNat = word.toNat % 2 ^ 64 := (Nat.mod_eq_of_lt (by omega)).symm
  rw [hmod, ← Nat.or_mod_two_pow, ← hmod, Nat.or_comm, ← Nat.shiftLeft_add_eq_or_of_lt hword,
    Nat.shiftLeft_eq, Nat.mul_comm, Nat.add_comm]

/-- What the reader of 32-bit varints makes of its word and one more group:
groups after the fifth lie beyond the word anyway. -/
theorem collect32 {done : Nat} {word : UInt32} (hword : done < 5 → word.toNat < 2 ^ (7 * done))
    (group : UInt8) :
    (if done < 5 then
        word ||| ((group &&& 0x7F).toUInt32 <<< UInt32.ofNat (7 * done))
      else word) =
      UInt32.ofNat (word.toNat + 2 ^ (7 * done) * (group.toNat % 128)) := by
  apply UInt32.toNat_inj.mp
  rw [UInt32.toNat_ofNat']
  split
  next hdone => exact toNat_or_shift32 hdone (hword hdone) group
  next hdone =>
    have hbeyond : 2 ^ (7 * done) = 2 ^ 32 * 2 ^ (7 * done - 32) := by
      rw [← Nat.pow_add]
      congr 1
      omega
    rw [hbeyond, Nat.mul_assoc, Nat.add_mul_mod_self_left]
    exact (Nat.mod_eq_of_lt word.toNat_lt).symm

theorem collect64 {done : Nat} (hdone : done < 10) {word : UInt64}
    (hword : word.toNat < 2 ^ (7 * done)) (group : UInt8) :
    word ||| ((group &&& 0x7F).toUInt64 <<< UInt64.ofNat (7 * done)) =
      UInt64.ofNat (word.toNat + 2 ^ (7 * done) * (group.toNat % 128)) := by
  apply UInt64.toNat_inj.mp
  rw [UInt64.toNat_ofNat']
  exact toNat_or_shift64 hdone hword group

/-- A word of some groups and one more group stay below the next group. -/
theorem add_group_lt {done word : Nat} (hword : word < 2 ^ (7 * done)) (group : UInt8) :
    word + 2 ^ (7 * done) * (group.toNat % 128) < 2 ^ (7 * (done + 1)) := by
  have hgroup : group.toNat % 128 + 1 ≤ 128 := Nat.mod_lt _ (by decide)
  calc word + 2 ^ (7 * done) * (group.toNat % 128)
      < 2 ^ (7 * done) + 2 ^ (7 * done) * (group.toNat % 128) := Nat.add_lt_add_right hword _
    _ = 2 ^ (7 * done) * (group.toNat % 128 + 1) := by rw [Nat.mul_add, Nat.mul_one, Nat.add_comm]
    _ ≤ 2 ^ (7 * done) * 128 := Nat.mul_le_mul_left _ hgroup
    _ = 2 ^ (7 * (done + 1)) := by rw [Nat.mul_add, Nat.pow_add]

theorem add_group_value (word done : Nat) (group : UInt8) (rest : List UInt8) :
    word + 2 ^ (7 * done) * (group.toNat % 128) + 2 ^ (7 * (done + 1)) * value rest =
      word + 2 ^ (7 * done) * value (group :: rest) := by
  rw [value, Nat.mul_add 7, Nat.pow_add, Nat.mul_add, Nat.mul_assoc, Nat.add_assoc]

end Varint

end WireCodec
