import WireCodec.Text.Characters

/-! # Names of map entries

A map field stands for repeated entry messages. The name of the entry message
is made from the names of the message and the field, with a dot that no
declared name has; the flat name is the one without the dot.
-/

namespace WireCodec

/-- The letters of a name with every part in upper camel case; `start` says
whether a part begins here. -/
def camelLetters (start : Bool) : List Char → List Char
  | [] => []
  | c :: rest =>
    if c = '_' then camelLetters true rest
    else if start then Text.upper c ++ camelLetters false rest
    else c :: camelLetters false rest

/-- A name with underscores as one in upper camel case. -/
def upperCamel (name : String) : String := String.ofList (camelLetters true name.toList)

/-- The name of the entry message of a map field. -/
def entryName (message field : String) : String := message ++ "." ++ upperCamel field ++ "Entry"

/-- A name without its dots. -/
def flatName (name : String) : String := String.ofList (name.toList.filter (· != '.'))

/-- The name of the first field of an entry. -/
def keyField : String := "key"

/-- The name of the second field of an entry. -/
def valueField : String := "value"

end WireCodec
