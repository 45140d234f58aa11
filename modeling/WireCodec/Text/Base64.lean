import WireCodec.Bytes

/-! # Base 64

What writes byte strings as texts and reads them again is taken as given. The
one that is used here has the standard alphabet with padding. It reads
strictly: padding is required, nothing else may stand in the text, and the
bits that padding makes meaningless have to be zero.
-/

namespace WireCodec

/-- What writes byte strings as texts, and reads them. -/
class Base64Engine where
  encode : Bytes → String
  decode? : String → Option Bytes

namespace Text.Base64

/-- The character of a number below 64. -/
def symbol (n : Nat) : Char :=
  if n < 26 then Char.ofNat (65 + n)
  else if n < 52 then Char.ofNat (71 + n)
  else if n < 62 then Char.ofNat (n - 4)
  else if n = 62 then '+'
  else '/'

/-- The number a character stands for. -/
def symbolValue? (c : Char) : Option Nat :=
  let code := c.toNat
  if 65 ≤ code ∧ code ≤ 90 then some (code - 65)
  else if 97 ≤ code ∧ code ≤ 122 then some (code - 71)
  else if 48 ≤ code ∧ code ≤ 57 then some (code + 4)
  else if c = '+' then some 62
  else if c = '/' then some 63
  else none

/-- The characters of a list of bytes, four for every three bytes. -/
def symbols : List UInt8 → List Char
  | [] => []
  | [a] => [symbol (a.toNat / 4), symbol (a.toNat % 4 * 16), '=', '=']
  | [a, b] =>
    [symbol (a.toNat / 4), symbol (a.toNat % 4 * 16 + b.toNat / 16), symbol (b.toNat % 16 * 4),
      '=']
  | a :: b :: c :: rest =>
    symbol (a.toNat / 4) :: symbol (a.toNat % 4 * 16 + b.toNat / 16) ::
      symbol (b.toNat % 16 * 4 + c.toNat / 64) :: symbol (c.toNat % 64) :: symbols rest

def encode (bytes : Bytes) : String := String.ofList (symbols bytes.toList)

/-- The bytes of a list of characters, in groups of four. -/
def decodeGroups : List Char → Option (List UInt8)
  | [] => some []
  | [w, x, '=', '='] => do
    let a ← symbolValue? w
    let b ← symbolValue? x
    if b % 16 = 0 then some [UInt8.ofNat (a * 4 + b / 16)] else none
  | [w, x, y, '='] => do
    let a ← symbolValue? w
    let b ← symbolValue? x
    let c ← symbolValue? y
    if c % 4 = 0 then some [UInt8.ofNat (a * 4 + b / 16), UInt8.ofNat (b % 16 * 16 + c / 4)]
    else none
  | w :: x :: y :: z :: rest => do
    let a ← symbolValue? w
    let b ← symbolValue? x
    let c ← symbolValue? y
    let d ← symbolValue? z
    let bytes ← decodeGroups rest
    return UInt8.ofNat (a * 4 + b / 16) :: UInt8.ofNat (b % 16 * 16 + c / 4) ::
      UInt8.ofNat (c % 4 * 64 + d) :: bytes
  | _ => none

def decode? (text : String) : Option Bytes := List.toArray <$> decodeGroups text.toList

end Text.Base64

instance : Base64Engine := ⟨Text.Base64.encode, Text.Base64.decode?⟩

end WireCodec
