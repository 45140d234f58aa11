import WireCodec.Json.NumberText
import WireCodec.Text.Hex

/-! # Printing JSON

A value is printed on one line without blanks, or with every item and member
on a line of its own. Only quotes, backslashes and control characters of a
text are escaped.
-/

namespace WireCodec

/-- A character as it stands in a quoted text. -/
def escapeChar (c : Char) : List Char :=
  if c = '"' then ['\\', '"']
  else if c = '\\' then ['\\', '\\']
  else if c = '\x08' then ['\\', 'b']
  else if c = '\t' then ['\\', 't']
  else if c = '\n' then ['\\', 'n']
  else if c = '\x0c' then ['\\', 'f']
  else if c = '\r' then ['\\', 'r']
  else if c.toNat < 32 then
    ['\\', 'u', '0', '0', Text.Hex.digit (c.toNat / 16), Text.Hex.digit (c.toNat % 16)]
  else [c]

/-- A text in quotes. -/
def quoteChars (s : String) : List Char := '"' :: s.toList.flatMap escapeChar ++ ['"']

namespace JsonLayout

/-- What stands before an item or a closing bracket at some depth. -/
def lineBreak : JsonLayout → Nat → List Char
  | compact, _ => []
  | pretty, depth => '\n' :: List.replicate (2 * depth) ' '

/-- What stands between the name and the value of a member. -/
def colon : JsonLayout → List Char
  | compact => [':']
  | pretty => [':', ' ']

end JsonLayout

namespace Json

variable (layout : JsonLayout)

mutual

/-- The text of a value at some depth. -/
def chars (depth : Nat) : Json → List Char
  | null => ['n', 'u', 'l', 'l']
  | bool true => ['t', 'r', 'u', 'e']
  | bool false => ['f', 'a', 'l', 's', 'e']
  | number n => n.text
  | string s => quoteChars s
  | array [] => ['[', ']']
  | array (item :: rest) =>
    '[' :: layout.lineBreak (depth + 1) ++ chars (depth + 1) item ++ itemChars (depth + 1) rest ++
      layout.lineBreak depth ++ [']']
  | object [] => ['{', '}']
  | object ((name, value) :: rest) =>
    '{' :: layout.lineBreak (depth + 1) ++ quoteChars name ++ layout.colon ++
      chars (depth + 1) value ++ memberChars (depth + 1) rest ++ layout.lineBreak depth ++ ['}']

/-- The text of items that follow another one. -/
def itemChars (depth : Nat) : List Json → List Char
  | [] => []
  | item :: rest => ',' :: layout.lineBreak depth ++ chars depth item ++ itemChars depth rest

/-- The text of members that follow another one. -/
def memberChars (depth : Nat) : List (String × Json) → List Char
  | [] => []
  | (name, value) :: rest =>
    ',' :: layout.lineBreak depth ++ quoteChars name ++ layout.colon ++ chars depth value ++
      memberChars depth rest

end

/-- The text of a value. -/
def print (value : Json) : String := String.ofList (value.chars layout 0)

end Json

end WireCodec
