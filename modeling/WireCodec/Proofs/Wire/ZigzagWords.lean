import WireCodec.Proofs.Wire.ScalarForm

/-! # Zigzag numbers by shifts

On words, the place of a number in the zigzag sequence comes from one shift to
the left, with all bits turned over if the number is negative, and the number
comes back from its place by one shift to the right.
-/

namespace WireCodec.Zigzag

theorem encode_eq (n : Int) : (encode n : Int) = if 0 ≤ n then 2 * n else -2 * n - 1 := by
  cases n with
  | ofNat n => exact (if_pos (Int.natCast_nonneg n)).symm
  | negSucc n =>
      rw [if_neg (by omega), encode]
      omega

variable {w : Nat}

/-- After as many shifts as it has other bits, all bits of a word are its sign. -/
theorem sshiftRight_sign (x : BitVec (w + 1)) :
    x.sshiftRight w = if x.msb then BitVec.allOnes (w + 1) else 0#(w + 1) := by
  ext i hi
  have hbit : (x.sshiftRight w)[i] = x.msb := by
    rw [BitVec.getElem_sshiftRight, BitVec.msb_eq_getLsbD_last]
    split
    next h =>
      obtain rfl : i = 0 := by omega
      rfl
    next => rfl
  rw [hbit]
  cases x.msb <;> simp

theorem toNat_encode_bits (x : BitVec (w + 1)) :
    ((x <<< 1) ^^^ x.sshiftRight w).toNat = encode x.toInt := by
  have hpow : 2 ^ (w + 1) = 2 * 2 ^ w := Nat.pow_succ'
  have hlt := x.isLt
  have hsign := x.msb_eq_decide
  have hint := x.toInt_eq_msb_cond
  have hencode := encode_eq x.toInt
  rw [Nat.add_sub_cancel] at hsign
  rw [sshiftRight_sign]
  cases hmsb : x.msb with
  | false =>
      have hsmall : x.toNat < 2 ^ w := by simpa [hmsb] using hsign
      have hshift : x.toNat * 2 ^ 1 % 2 ^ (w + 1) = 2 * x.toNat := by
        rw [Nat.mod_eq_of_lt (by omega)]
        omega
      rw [if_neg Bool.false_ne_true, BitVec.xor_zero, BitVec.toNat_shiftLeft, Nat.shiftLeft_eq,
        hshift]
      rw [hmsb, if_neg Bool.false_ne_true] at hint
      rw [if_pos (by omega)] at hencode
      omega
  | true =>
      have hlarge : 2 ^ w ≤ x.toNat := by simpa [hmsb] using hsign
      have hshift : x.toNat * 2 ^ 1 % 2 ^ (w + 1) = 2 * x.toNat - 2 ^ (w + 1) := by
        rw [Nat.mod_eq_sub_mod (by omega), Nat.mod_eq_of_lt (by omega)]
        omega
      rw [if_pos rfl, BitVec.xor_allOnes, BitVec.toNat_not, BitVec.toNat_shiftLeft,
        Nat.shiftLeft_eq, hshift]
      rw [hmsb, if_pos rfl] at hint
      rw [if_neg (by omega)] at hencode
      omega

theorem toInt_decode_bits (x : BitVec (w + 1)) :
    ((x >>> 1) ^^^ -(x &&& 1#(w + 1))).toInt = decode x.toNat := by
  have hpow : 2 ^ (w + 1) = 2 * 2 ^ w := Nat.pow_succ'
  have hlt := x.isLt
  have hhalf : (x >>> 1).toNat = x.toNat / 2 := by
    rw [BitVec.toNat_ushiftRight, Nat.shiftRight_eq_div_pow, Nat.pow_one]
  have hone : (1#(w + 1)).toNat = 1 := Nat.mod_eq_of_lt (by omega)
  have hbit : (x &&& 1#(w + 1)).toNat = x.toNat % 2 := by
    rw [BitVec.toNat_and, hone, Nat.and_one_is_mod]
  rw [decode]
  split
  next heven =>
    have hzero : x &&& 1#(w + 1) = 0#(w + 1) := BitVec.eq_of_toNat_eq (hbit.trans heven)
    rw [hzero, BitVec.neg_zero, BitVec.xor_zero, BitVec.toInt_eq_toNat_of_lt (by omega), hhalf]
    rfl
  next hodd =>
    have hsign : x &&& 1#(w + 1) = 1#(w + 1) := BitVec.eq_of_toNat_eq (by omega)
    rw [hsign, BitVec.neg_one_eq_allOnes, BitVec.xor_allOnes, BitVec.toInt_eq_toNat_cond,
      BitVec.toNat_not, hhalf, if_neg (by omega)]
    omega

theorem encode32_eq_shifts (n : Int32) : encode32 n = ((n <<< 1) ^^^ (n >>> 31)).toUInt32 := by
  apply UInt32.toNat_inj.mp
  have hbits : ((n <<< 1) ^^^ (n >>> 31)).toUInt32.toNat = encode n.toInt :=
    toNat_encode_bits n.toBitVec
  rw [hbits, encode32, UInt32.toNat_ofNat']
  exact Nat.mod_eq_of_lt (encode_lt (2 ^ 31) n.le_toInt n.toInt_lt)

theorem encode64_eq_shifts (n : Int64) : encode64 n = ((n <<< 1) ^^^ (n >>> 63)).toUInt64 := by
  apply UInt64.toNat_inj.mp
  have hbits : ((n <<< 1) ^^^ (n >>> 63)).toUInt64.toNat = encode n.toInt :=
    toNat_encode_bits n.toBitVec
  rw [hbits, encode64, UInt64.toNat_ofNat']
  exact Nat.mod_eq_of_lt (encode_lt (2 ^ 63) n.le_toInt n.toInt_lt)

theorem decode32_eq_shifts (n : UInt32) :
    decode32 n = (n >>> 1).toInt32 ^^^ -(n &&& 1).toInt32 := by
  have hbits : ((n >>> 1).toInt32 ^^^ -(n &&& 1).toInt32).toInt = decode n.toNat :=
    toInt_decode_bits n.toBitVec
  rw [decode32, ← hbits, Int32.ofInt_toInt]

theorem decode64_eq_shifts (n : UInt64) :
    decode64 n = (n >>> 1).toInt64 ^^^ -(n &&& 1).toInt64 := by
  have hbits : ((n >>> 1).toInt64 ^^^ -(n &&& 1).toInt64).toInt = decode n.toNat :=
    toInt_decode_bits n.toBitVec
  rw [decode64, ← hbits, Int64.ofInt_toInt]

end WireCodec.Zigzag
