import WireCodec.Bytes

/-! # Hexadecimal text

Bytes as two digits each, the high one first. Writing uses lower case, reading
takes either case and accepts nothing between the digits.
-/

namespace WireCodec.Text.Hex

/-- Why a text is not hexadecimal. -/
inductive Error where
  | oddLength
  | invalidDigit (byte : UInt8) (position : Nat)
deriving DecidableEq, Repr

/-- The digit of a number below sixteen. -/
def digit (n : Nat) : Char :=
  if n < 10 then Char.ofNat (48 + n) else Char.ofNat (87 + n)

/-- The number an ASCII digit stands for. -/
def digitValue? (byte : UInt8) : Option Nat :=
  let code := byte.toNat
  if 48 ≤ code ∧ code ≤ 57 then some (code - 48)
  else if 97 ≤ code ∧ code ≤ 102 then some (code - 87)
  else if 65 ≤ code ∧ code ≤ 70 then some (code - 55)
  else none

/-- The digits of a list of bytes. -/
def digits : List UInt8 → List Char
  | [] => []
  | byte :: rest => digit (byte.toNat / 16) :: digit (byte.toNat % 16) :: digits rest

/-- The hexadecimal text of a byte string. -/
def encode (bytes : Bytes) : String := String.ofList (digits bytes.toList)

/-- The bytes of a list of digits that starts at a position, in pairs. -/
def decodePairs (position : Nat) : List UInt8 → Except Error (List UInt8)
  | high :: low :: rest =>
    match digitValue? high, digitValue? low with
    | none, _ => .error (.invalidDigit high position)
    | some _, none => .error (.invalidDigit low (position + 1))
    | some h, some l => do
      let bytes ← decodePairs (position + 2) rest
      return UInt8.ofNat (16 * h + l) :: bytes
  | [_] => .error .oddLength
  | [] => .ok []

/-- The byte string a hexadecimal text stands for. An odd number of bytes in
the text is reported before any wrong digit. -/
def decode (text : String) : Except Error Bytes :=
  let codes := (Bytes.ofText text).toList
  if codes.length % 2 = 1 then .error .oddLength
  else List.toArray <$> decodePairs 0 codes

/-- A character as a quoted literal, with the escapes that a reader of the
message needs. -/
def quoted (byte : UInt8) : String :=
  let c := Char.ofNat byte.toNat
  let body :=
    if byte = 0 then "\\0"
    else if c = '\t' then "\\t"
    else if c = '\n' then "\\n"
    else if c = '\r' then "\\r"
    else if c = '\'' then "\\'"
    else if c = '\\' then "\\\\"
    else if byte.toNat < 32 ∨ (127 ≤ byte.toNat ∧ byte.toNat ≤ 160) ∨ byte.toNat = 173 then
      "\\u\x7b" ++ String.ofList (Nat.toDigits 16 byte.toNat) ++ "\x7d"
    else c.toString
  "'" ++ body ++ "'"

/-- The wording of an error. -/
def Error.message : Error → String
  | oddLength => "Odd number of digits"
  | invalidDigit byte position => s!"Invalid character {quoted byte} at position {position}"

end WireCodec.Text.Hex
