/-! # Byte strings

Byte strings are arrays of bytes. Text is stored as UTF-8, and fixed-width
numbers with their least significant byte first. Other numbers are stored as
varints, signed ones by their zigzag number where they may be negative often.
-/

namespace WireCodec

/-- A byte string. -/
abbrev Bytes := Array UInt8

/-- The UTF-8 form of a text. -/
def Bytes.ofText (text : String) : Bytes := text.toUTF8.data

/-- The text a byte string is the UTF-8 form of, if it is one. -/
def Bytes.toText? (bytes : Bytes) : Option String := String.fromUTF8? ⟨bytes⟩

/-- The `width` low bytes of a number, the least significant one first. -/
def littleEndian : Nat → Nat → List UInt8
  | 0, _ => []
  | width + 1, n => UInt8.ofNat n :: littleEndian width (n / 256)

/-- The number a list of bytes spells, the least significant byte first. -/
def ofLittleEndian : List UInt8 → Nat
  | [] => 0
  | byte :: rest => byte.toNat + 256 * ofLittleEndian rest

@[simp]
theorem littleEndian_length (width n : Nat) : (littleEndian width n).length = width := by
  induction width generalizing n with
  | zero => rfl
  | succ width ih => simp [littleEndian, ih]

/-! ## Varints

A varint writes a number in base 128, the least significant group first, and
marks every group but the last with the high bit of its byte.
-/

namespace Varint

/-- The shortest varint of a number. -/
def encode (n : Nat) : List UInt8 :=
  if n < 128 then [UInt8.ofNat n] else UInt8.ofNat (n % 128 + 128) :: encode (n / 128)
termination_by n

/-- Whether more bytes follow this one. -/
def continues (byte : UInt8) : Bool := 128 ≤ byte.toNat

theorem encode_of_lt {n : Nat} (h : n < 128) : encode n = [UInt8.ofNat n] := by
  rw [encode, if_pos h]

theorem encode_of_le {n : Nat} (h : 128 ≤ n) :
    encode n = UInt8.ofNat (n % 128 + 128) :: encode (n / 128) := by
  rw [encode, if_neg (by omega)]

theorem encode_ne_nil (n : Nat) : encode n ≠ [] := by
  rw [encode]
  split <;> simp

end Varint

/-! ## Zigzag numbers

Zigzag numbering maps integers of small magnitude to small natural numbers:
0, -1, 1, -2, 2 become 0, 1, 2, 3, 4. The fixed-width versions are that one
numbering, restricted to a word.
-/

namespace Zigzag

/-- The place of an integer in the sequence 0, -1, 1, -2, 2, … -/
def encode : Int → Nat
  | .ofNat n => 2 * n
  | .negSucc n => 2 * n + 1

/-- The integer at a place of the sequence 0, -1, 1, -2, 2, … -/
def decode (n : Nat) : Int := if n % 2 = 0 then .ofNat (n / 2) else .negSucc (n / 2)

theorem decode_encode (n : Int) : decode (encode n) = n := by
  cases n with
  | ofNat n => simp [encode, decode]
  | negSucc n =>
      have hhalf : (2 * n + 1) / 2 = n := by omega
      simp [encode, decode, hhalf]

def encode32 (n : Int32) : UInt32 := UInt32.ofNat (encode n.toInt)

def decode32 (n : UInt32) : Int32 := Int32.ofInt (decode n.toNat)

def encode64 (n : Int64) : UInt64 := UInt64.ofNat (encode n.toInt)

def decode64 (n : UInt64) : Int64 := Int64.ofInt (decode n.toNat)

end Zigzag

end WireCodec
