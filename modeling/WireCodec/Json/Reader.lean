import WireCodec.Json.NumberReader
import WireCodec.Json.Printer
import WireCodec.Json.StringReader
import WireCodec.Value.Sorted

/-! # Reading JSON

A text is read one character after the other. The containers that are open
form a stack, and a phase says what may come next. Of several members with
one name the last one counts.
-/

namespace WireCodec

/-- How many containers may be open at once. -/
def jsonNestingLimit : Nat := 127

/-- An open container that waits for a value: an array with the items read so
far in reverse order, or an object with its members and the name of the next
one. -/
inductive JsonFrame where
  | array (items : List Json)
  | object (members : List (String × Json)) (name : String)
deriving Repr

/-- What may come next. -/
inductive JsonPhase where
  /-- A value; in an array without items also the end of it. -/
  | value (mayClose : Bool)
  /-- The name of a member; in an object without members also the end of it. -/
  | name (members : List (String × Json)) (mayClose : Bool)
  /-- More of the name of a member. -/
  | nameText (members : List (String × Json)) (reader : StringReader)
  /-- The colon behind the name of a member. -/
  | colon (members : List (String × Json)) (name : String)
  /-- More of a text. -/
  | text (reader : StringReader)
  /-- More of a number. -/
  | number (reader : NumberReader)
  /-- The rest of a word that stands for a value. -/
  | word (rest : List Char) (value : Json)
  /-- What follows a value that is complete. -/
  | complete (value : Json)
deriving Repr

/-- How far a text has been read. -/
structure JsonReader where
  stack : List JsonFrame
  phase : JsonPhase
deriving Repr

namespace JsonReader

/-- Before the first character. -/
def start : JsonReader := ⟨[], .value false⟩

/-- Whether a character may stand between tokens. -/
def isSpace (c : Char) : Bool := c = ' ' || c = '\t' || c = '\n' || c = '\r'

/-- Reads the end of the innermost container. -/
def close (stack : List JsonFrame) (value : Json) : JsonReader := ⟨stack, .complete value⟩

/-- Reads the first character of a value. -/
def beginValue? (stack : List JsonFrame) (c : Char) : Option JsonReader :=
  if c = '"' then some ⟨stack, .text .start⟩
  else if c = '[' then
    if stack.length < jsonNestingLimit then some ⟨.array [] :: stack, .value true⟩ else none
  else if c = '{' then
    if stack.length < jsonNestingLimit then some ⟨stack, .name [] true⟩ else none
  else if c = 'n' then some ⟨stack, .word ['u', 'l', 'l'] .null⟩
  else if c = 't' then some ⟨stack, .word ['r', 'u', 'e'] (.bool true)⟩
  else if c = 'f' then some ⟨stack, .word ['a', 'l', 's', 'e'] (.bool false)⟩
  else if c = '-' then some ⟨stack, .number ⟨true, .start⟩⟩
  else
    ((NumberReader.mk false .start).step? c).map fun reader => ⟨stack, .number reader⟩

/-- Reads a character behind a complete value. -/
def afterValue? (stack : List JsonFrame) (value : Json) (c : Char) : Option JsonReader :=
  if isSpace c then some ⟨stack, .complete value⟩
  else
    match stack with
    | [] => none
    | .array items :: outer =>
      if c = ',' then some ⟨.array (value :: items) :: outer, .value false⟩
      else if c = ']' then some (close outer (.array (value :: items).reverse))
      else none
    | .object members name :: outer =>
      let members := Sorted.insert name value members
      if c = ',' then some ⟨outer, .name members false⟩
      else if c = '}' then some (close outer (.object members))
      else none

/-- Reads a character. -/
def step? (reader : JsonReader) (c : Char) : Option JsonReader :=
  let stack := reader.stack
  match reader.phase with
  | .value mayClose =>
    if isSpace c then some reader
    else if mayClose && c == ']' then some (close stack.tail (.array []))
    else beginValue? stack c
  | .name members mayClose =>
    if isSpace c then some reader
    else if mayClose && c == '}' then some (close stack (.object members))
    else if c = '"' then some ⟨stack, .nameText members .start⟩
    else none
  | .nameText members text =>
    (text.step? c).map fun
      | .more text => ⟨stack, .nameText members text⟩
      | .closed name => ⟨stack, .colon members name⟩
  | .colon members name =>
    if isSpace c then some reader
    else if c = ':' then some ⟨.object members name :: stack, .value false⟩
    else none
  | .text text =>
    (text.step? c).map fun
      | .more text => ⟨stack, .text text⟩
      | .closed text => ⟨stack, .complete (.string text)⟩
  | .number number =>
    match number.step? c with
    | some number => some ⟨stack, .number number⟩
    | none => do afterValue? stack (.number (← number.finish?)) c
  | .word rest value =>
    match rest with
    | [] => afterValue? stack value c
    | [last] => if c = last then some ⟨stack, .complete value⟩ else none
    | next :: rest => if c = next then some ⟨stack, .word rest value⟩ else none
  | .complete value => afterValue? stack value c

/-- The value that was read, if the text may end here. -/
def finish? (reader : JsonReader) : Option Json :=
  match reader.stack, reader.phase with
  | [], .complete value => some value
  | [], .number number => .number <$> number.finish?
  | _, _ => none

end JsonReader

/-- The value that a text is. -/
def Json.parse? (text : String) : Option Json := do
  (← text.toList.foldlM JsonReader.step? .start).finish?

instance : JsonText := ⟨fun layout value => value.print layout, Json.parse?⟩

end WireCodec
