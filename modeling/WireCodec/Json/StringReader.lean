import WireCodec.Text.Hex

/-! # Reading quoted texts

A quoted text is read one character after the other, up to the closing quote.
Control characters have to be escaped, and the escapes of the two halves of a
surrogate pair have to stand side by side.
-/

namespace WireCodec

/-- What the next character of a quoted text belongs to. -/
inductive StringPhase where
  | plain
  /-- The character behind a backslash. -/
  | escape
  /-- A digit of a code unit, of which so many have been read; `high` is the
  first half of a pair. -/
  | unit (high : Option Nat) (count value : Nat)
  /-- The backslash of the second half of a pair. -/
  | pairBackslash (high : Nat)
  /-- The letter of the second half of a pair. -/
  | pairLetter (high : Nat)
deriving DecidableEq, Repr

/-- A quoted text that is being read, its characters in reverse order. -/
structure StringReader where
  phase : StringPhase
  read : List Char
deriving DecidableEq, Repr

/-- What reading a character of a quoted text leads to. -/
inductive StringStep where
  | more (reader : StringReader)
  | closed (text : String)
deriving DecidableEq, Repr

namespace StringReader

/-- At the opening quote. -/
def start : StringReader := ⟨.plain, []⟩

/-- With one more character read. -/
def push (reader : StringReader) (c : Char) : StringReader := ⟨.plain, c :: reader.read⟩

/-- The character that a letter behind a backslash stands for. -/
def escaped? (c : Char) : Option Char :=
  if c = '"' ∨ c = '\\' ∨ c = '/' then some c
  else if c = 'b' then some '\x08'
  else if c = 'f' then some '\x0c'
  else if c = 'n' then some '\n'
  else if c = 'r' then some '\r'
  else if c = 't' then some '\t'
  else none

/-- With one more code unit read, on its own or behind the first half of a
pair. -/
def pushUnit? (reader : StringReader) (high : Option Nat) (value : Nat) : Option StringReader :=
  match high with
  | some high =>
    if 0xDC00 ≤ value ∧ value ≤ 0xDFFF then
      some (reader.push (Char.ofNat (0x10000 + (high - 0xD800) * 0x400 + (value - 0xDC00))))
    else none
  | none =>
    if 0xD800 ≤ value ∧ value ≤ 0xDBFF then some { reader with phase := .pairBackslash value }
    else if 0xDC00 ≤ value ∧ value ≤ 0xDFFF then none
    else some (reader.push (Char.ofNat value))

/-- The number a hexadecimal digit stands for. -/
def hexValue? (c : Char) : Option Nat :=
  if c.toNat < 128 then Text.Hex.digitValue? (UInt8.ofNat c.toNat) else none

/-- Reads a character. -/
def step? (reader : StringReader) (c : Char) : Option StringStep :=
  match reader.phase with
  | .plain =>
    if c = '"' then some (.closed (String.ofList reader.read.reverse))
    else if c = '\\' then some (.more { reader with phase := .escape })
    else if c.toNat < 32 then none
    else some (.more (reader.push c))
  | .escape =>
    if c = 'u' then some (.more { reader with phase := .unit none 0 0 })
    else (escaped? c).map fun c => .more (reader.push c)
  | .unit high count value => do
    let value := 16 * value + (← hexValue? c)
    if count = 3 then .more <$> reader.pushUnit? high value
    else return .more { reader with phase := .unit high (count + 1) value }
  | .pairBackslash high =>
    if c = '\\' then some (.more { reader with phase := .pairLetter high }) else none
  | .pairLetter high =>
    if c = 'u' then some (.more { reader with phase := .unit (some high) 0 0 }) else none

end StringReader

end WireCodec
