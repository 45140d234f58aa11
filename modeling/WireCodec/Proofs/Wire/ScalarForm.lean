import WireCodec.Proofs.Wire.Parses

/-! # Forms of scalars and keys

Each scalar and each key has one form on the wire, and its reader takes that
form back to it.
-/

namespace WireCodec

/-- A scalar as it stands on the wire. -/
def ScalarType.wire : (type : ScalarType) → type.Carrier → WireValue
  | .double, x => .inline (littleEndian 8 x.bits.toNat)
  | .float, x => .inline (littleEndian 4 x.bits.toNat)
  | .int32, x => .inline (Varint.encode x.toInt64.toUInt64.toNat)
  | .int64, x => .inline (Varint.encode x.toUInt64.toNat)
  | .uint32, x => .inline (Varint.encode x.toNat)
  | .uint64, x => .inline (Varint.encode x.toNat)
  | .sint32, x => .inline (Varint.encode (Zigzag.encode32 x).toNat)
  | .sint64, x => .inline (Varint.encode (Zigzag.encode64 x).toNat)
  | .fixed32, x => .inline (littleEndian 4 x.toNat)
  | .fixed64, x => .inline (littleEndian 8 x.toNat)
  | .sfixed32, x => .inline (littleEndian 4 x.toUInt32.toNat)
  | .sfixed64, x => .inline (littleEndian 8 x.toUInt64.toNat)
  | .bool, x => .inline [if x then 1 else 0]
  | .string, x => .text (Bytes.ofText x).toList
  | .bytes, x => .text x.toList

@[simp]
theorem ScalarType.wire_depth (type : ScalarType) (x : type.Carrier) : (type.wire x).depth = 0 := by
  cases type <;> rfl

theorem Bytes.toText?_ofText (text : String) : Bytes.toText? (Bytes.ofText text) = some text :=
  dif_pos text.isValidUTF8

theorem Zigzag.encode_lt (bound : Nat) {n : Int} (hlow : -bound ≤ n) (hhigh : n < bound) :
    encode n < 2 * bound := by
  cases n with
  | ofNat n =>
      have hlt : n < bound := Int.ofNat_lt.mp hhigh
      simp only [encode]
      omega
  | negSucc n =>
      simp only [encode]
      omega

theorem Zigzag.decode32_encode32 (n : Int32) : decode32 (encode32 n) = n := by
  have hlt : encode n.toInt < 2 ^ 32 := encode_lt (2 ^ 31) n.le_toInt n.toInt_lt
  rw [decode32, encode32, UInt32.toNat_ofNat', Nat.mod_eq_of_lt hlt, decode_encode,
    Int32.ofInt_toInt]

theorem Zigzag.decode64_encode64 (n : Int64) : decode64 (encode64 n) = n := by
  have hlt : encode n.toInt < 2 ^ 64 := encode_lt (2 ^ 63) n.le_toInt n.toInt_lt
  rw [decode64, encode64, UInt64.toNat_ofNat', Nat.mod_eq_of_lt hlt, decode_encode,
    Int64.ofInt_toInt]

/-- A word that is extended by its sign and cut again is the same word. -/
theorem toInt32_signExtend (n : Int32) : n.toInt64.toUInt64.toUInt32.toInt32 = n := by
  apply Int32.toBitVec_inj.mp
  have hcut : BitVec.setWidth 32 (BitVec.signExtend 64 n.toBitVec) = n.toBitVec := by grind
  simpa using hcut

theorem WireType.code_lt (wireType : WireType) : wireType.code.toNat < 8 := by
  cases wireType <;> decide

theorem Key.toNat_word {key : Key} (hnumber : key.number.toNat < 2 ^ 29)
    (htype : key.wireType.toNat < 8) :
    key.word.toNat = 8 * key.number.toNat + key.wireType.toNat := by
  have hor : 2 ^ 3 * key.number.toNat + key.wireType.toNat =
      2 ^ 3 * key.number.toNat ||| key.wireType.toNat :=
    Nat.two_pow_add_eq_or_of_lt htype key.number.toNat
  have hshift : (8 * key.number.toNat) % 2 ^ 32 = 8 * key.number.toNat :=
    Nat.mod_eq_of_lt (by omega)
  rw [word, UInt32.toNat_or, UInt32.toNat_shiftLeft, UInt8.toNat_toUInt32, Nat.shiftLeft_eq,
    Nat.mul_comm]
  exact (congrArg (· ||| key.wireType.toNat) hshift).trans hor.symm

theorem Key.ofWord_word {key : Key} (hnumber : key.number.toNat < 2 ^ 29)
    (htype : key.wireType.toNat < 8) : ofWord key.word = key := by
  have hword := toNat_word hnumber htype
  have hhigh : key.word >>> 3 = key.number := by
    apply UInt32.toNat_inj.mp
    rw [UInt32.toNat_shiftRight, hword, Nat.shiftRight_eq_div_pow]
    simp only [UInt32.reduceToNat, Nat.reduceMod, Nat.reducePow]
    omega
  have hlow : (key.word &&& 7).toUInt8 = key.wireType := by
    apply UInt8.toNat_inj.mp
    rw [UInt32.toNat_toUInt8, UInt32.toNat_and, hword]
    rw [show (7 : UInt32).toNat = 2 ^ 3 - 1 from rfl, Nat.and_two_pow_sub_one_eq_mod]
    omega
  rw [ofWord, hhigh, hlow]

/-- Reading back the low bytes of a number gives the number modulo their range. -/
theorem ofLittleEndian_littleEndian (width n : Nat) :
    ofLittleEndian (littleEndian width n) = n % 256 ^ width := by
  induction width generalizing n with
  | zero => simp [littleEndian, ofLittleEndian, Nat.mod_one]
  | succ width ih =>
      have hsplit := @Nat.mod_mul 256 (256 ^ width) n
      simp only [littleEndian, ofLittleEndian, ih, UInt8.toNat_ofNat']
      rw [show 256 ^ (width + 1) = 256 * 256 ^ width from Nat.pow_succ', hsplit]

namespace Read

theorem parses_fixed (depth width : Nat) {n : Nat} (hn : n < 256 ^ width) :
    Parses (fixed width) depth (littleEndian width n) (.ok n) := by
  have hword := parses_take depth (littleEndian_length width n)
  have h := hword.map fun word => ofLittleEndian word.toList
  rwa [Except.map, ofLittleEndian_littleEndian, Nat.mod_eq_of_lt hn] at h

theorem parses_lengthPrefixed (depth : Nat) {payload : List UInt8}
    (hlength : payload.length < 2 ^ 32) :
    Parses lengthPrefixed depth (delimitedForm payload) (.ok payload.toArray) := by
  have hcount : (UInt32.ofNat payload.length).toNat = payload.length := by
    rw [UInt32.toNat_ofNat', Nat.mod_eq_of_lt hlength]
  exact (parses_byteCount depth payload.length).bind (parses_take depth hcount.symm)

/-- The reader of a scalar type takes the form of a scalar back to it. -/
theorem parses_scalar (depth : Nat) (type : ScalarType) (x : type.Carrier)
    (hfits : (type.wire x).Fits) : Parses (scalar type) depth (type.wire x).bytes (.ok x) := by
  cases type with
  | double =>
      have h := (parses_fixed depth 8 x.bits.toNat_lt).map
        (fun n => Binary64.mk (UInt64.ofNat n))
      rwa [Except.map, UInt64.ofNat_toNat] at h
  | float =>
      have h := (parses_fixed depth 4 x.bits.toNat_lt).map
        (fun n => Binary32.mk (UInt32.ofNat n))
      rwa [Except.map, UInt32.ofNat_toNat] at h
  | int32 =>
      -- negative numbers are written as 64-bit ones, of which 32 bits are kept
      have h := (parses_varint64_encode depth x.toInt64.toUInt64).map
        (fun n => n.toUInt32.toInt32)
      rwa [Except.map, toInt32_signExtend] at h
  | int64 => exact (parses_varint64_encode depth x.toUInt64).map (·.toInt64)
  | uint32 => exact parses_varint32_encode depth x
  | uint64 => exact parses_varint64_encode depth x
  | sint32 =>
      have h := (parses_varint32_encode depth (Zigzag.encode32 x)).map Zigzag.decode32
      rwa [Except.map, Zigzag.decode32_encode32] at h
  | sint64 =>
      have h := (parses_varint64_encode depth (Zigzag.encode64 x)).map Zigzag.decode64
      rwa [Except.map, Zigzag.decode64_encode64] at h
  | fixed32 =>
      have h := (parses_fixed depth 4 x.toNat_lt).map UInt32.ofNat
      rwa [Except.map, UInt32.ofNat_toNat] at h
  | fixed64 =>
      have h := (parses_fixed depth 8 x.toNat_lt).map UInt64.ofNat
      rwa [Except.map, UInt64.ofNat_toNat] at h
  | sfixed32 =>
      have h := (parses_fixed depth 4 x.toUInt32.toNat_lt).map
        (fun n => (UInt32.ofNat n).toInt32)
      rwa [Except.map, UInt32.ofNat_toNat] at h
  | sfixed64 =>
      have h := (parses_fixed depth 8 x.toUInt64.toNat_lt).map
        (fun n => (UInt64.ofNat n).toInt64)
      rwa [Except.map, UInt64.ofNat_toNat] at h
  | bool =>
      have hbytes : [if x then (1 : UInt8) else 0] =
          Varint.encode (if x then 1 else 0 : UInt64).toNat := by
        cases x <;> exact (Varint.encode_of_lt (by decide)).symm
      have h := (parses_varint64_encode depth (if x then 1 else 0)).map (· != 0)
      rw [ScalarType.wire, WireValue.bytes, hbytes]
      cases x <;> exact h
  | string =>
      refine (parses_lengthPrefixed depth hfits).bind_nil ?_
      -- bytes that were made of text are text again
      rw [Array.toArray_toList, Bytes.toText?_ofText]
      exact parses_pure x
  | bytes => exact parses_lengthPrefixed depth hfits

/-- What is made of the word of some groups, however many there are, is read as
a key, or as the end of a message where that word has no field number. -/
theorem parses_key_of_word (depth : Nat) {groups : List UInt8}
    (hgroups : Varint.Terminated groups) (hshort : groups.length ≤ 10) :
    let found := Key.ofWord (UInt32.ofNat (Varint.value groups))
    Parses key depth groups (.ok (if found.number = 0 then none else some found)) := by
  refine Parses.ifEnd ?_ (by cases hgroups <;> simp)
  exact (parses_varint32 depth hgroups hshort).bind_nil (parses_pure _)

/-- A key is read from the groups of its word, however many there are. -/
theorem parses_key_of_groups (depth : Nat) {groups : List UInt8}
    (hgroups : Varint.Terminated groups) (hshort : groups.length ≤ 10) {found : Key}
    (hkey : Key.ofWord (UInt32.ofNat (Varint.value groups)) = found) (hnumber : found.number ≠ 0) :
    Parses key depth groups (.ok (some found)) := by
  have h := parses_key_of_word depth hgroups hshort
  dsimp only at h
  rwa [hkey, if_neg hnumber] at h

/-- The reader of keys takes the form of a key back to it, if its number is
no more than 29 bits wide and not zero. -/
theorem parses_key (depth : Nat) {found : Key} (hnonzero : found.number ≠ 0)
    (hnumber : found.number.toNat < 2 ^ 29) (htype : found.wireType.toNat < 8) :
    Parses key depth found.form (.ok (some found)) := by
  have hlength : found.form.length ≤ 10 :=
    Varint.length_encode_le (by decide) (Nat.lt_trans found.word.toNat_lt (by decide))
  refine parses_key_of_groups depth (Varint.terminated_encode _) hlength ?_ hnonzero
  rw [Varint.value_encode, UInt32.ofNat_toNat, Key.ofWord_word hnumber htype]

theorem finishes_key (depth : Nat) : Finishes key depth [] (.ok none) :=
  finishes_ifEnd none

end Read

/-- The groups of a varint that are read as a key. -/
structure Key.SpelledBy (key : Key) (groups : List UInt8) : Prop where
  terminated : Varint.Terminated groups
  short : groups.length ≤ 10
  word : Key.ofWord (UInt32.ofNat (Varint.value groups)) = key

theorem Key.SpelledBy.parses {key : Key} {groups : List UInt8} (h : key.SpelledBy groups)
    (hnumber : key.number ≠ 0) (depth : Nat) : Read.Parses Read.key depth groups (.ok (some key)) :=
  Read.parses_key_of_groups depth h.terminated h.short h.word hnumber

end WireCodec
