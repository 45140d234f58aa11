import WireCodec.Schema.EntryName

/-! # Identifiers in generated code

A name of the schema becomes an identifier of the generated code. Reserved
words are marked, or get an underscore where no mark is allowed.
-/

namespace WireCodec

/-- The reserved words that may stand as identifiers with a mark. -/
def reservedWords : List String :=
  ["as", "async", "await", "break", "const", "continue", "dyn", "else", "enum", "extern", "false",
    "fn", "for", "gen", "if", "impl", "in", "let", "loop", "match", "mod", "move", "mut", "pub",
    "ref", "return", "static", "struct", "trait", "true", "type", "unsafe", "use", "where",
    "while", "abstract", "become", "box", "do", "final", "macro", "override", "priv", "try",
    "typeof", "unsized", "virtual", "yield"]

/-- The reserved words that may not stand as identifiers at all. -/
def forbiddenWords : List String := ["self", "Self", "super", "crate"]

/-- The identifier of a name. -/
def identifier (name : String) : String :=
  if forbiddenWords.contains name then name ++ "_"
  else if reservedWords.contains name then "r#" ++ name
  else name

/-- The identifier of a type. -/
def typeIdentifier (name : String) : String := identifier (flatName name)

/-- The letters of a symbol with each part in title case; `start` says
whether a part begins here. -/
def titleLetters (start : Bool) : List Char → List Char
  | [] => []
  | c :: rest =>
    if c = '_' then titleLetters true rest
    else if start then Text.upper c ++ titleLetters false rest
    else Text.lower c ++ titleLetters false rest

/-- The identifier of an enum symbol. A letter goes in front where there would
be none. -/
def variantIdentifier (symbol : String) : String :=
  match titleLetters true symbol.toList with
  | [] => identifier "V"
  | c :: rest => identifier (String.ofList (if c.isDigit then 'V' :: c :: rest else c :: rest))

end WireCodec
