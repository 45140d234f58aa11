import WireCodec.Schema.Basic

/-! # Tokens

The words, numbers, texts and marks that a schema text consists of.
-/

namespace WireCodec

/-- A word with a fixed meaning, which no declaration may have as its name. -/
inductive Keyword where
  | version
  | package
  | message
  | enum
  | map
  | required
  | optional
  | repeated
deriving DecidableEq, Repr

namespace Keyword

def all : List Keyword := [version, package, message, enum, map, required, optional, repeated]

/-- The spelling of a keyword. -/
def text : Keyword → String
  | version => "syntax"
  | package => "package"
  | message => "message"
  | enum => "enum"
  | map => "map"
  | required => "required"
  | optional => "optional"
  | repeated => "repeated"

end Keyword

/-- A token of one character. -/
inductive Mark where
  | openBrace
  | closeBrace
  | openBracket
  | closeBracket
  | openAngle
  | closeAngle
  | comma
  | dot
  | minus
  | equals
  | semicolon
deriving DecidableEq, Repr

namespace Mark

def all : List Mark :=
  [openBrace, closeBrace, openBracket, closeBracket, openAngle, closeAngle, comma, dot, minus,
    equals, semicolon]

def char : Mark → Char
  | openBrace => '\x7b'
  | closeBrace => '\x7d'
  | openBracket => '['
  | closeBracket => ']'
  | openAngle => '<'
  | closeAngle => '>'
  | comma => ','
  | dot => '.'
  | minus => '-'
  | equals => '='
  | semicolon => ';'

/-- The mark that a character is. -/
def ofChar? (c : Char) : Option Mark := all.find? (·.char == c)

end Mark

/-- A token of a schema text. -/
inductive Token where
  | keyword (word : Keyword)
  | ident (name : String)
  | int (n : UInt32)
  | text (content : String)
  | mark (m : Mark)
deriving DecidableEq, Repr

namespace Token

/-- The token that a word is. -/
def ofWord (word : String) : Token :=
  match Keyword.all.find? (·.text == word) with
  | some found => .keyword found
  | none => .ident word

/-- A token as it is spelled. -/
def spelling : Token → String
  | keyword word => word.text
  | ident name => name
  | int n => toString n.toNat
  | text content => "\"" ++ content ++ "\""
  | mark m => m.char.toString

end Token

/-- Whether a character may begin a word. -/
def isWordStart (c : Char) : Bool := c.isAlpha || c == '_'

/-- Whether a character may continue a word. -/
def isWordPart (c : Char) : Bool := c.isAlphanum || c == '_'

end WireCodec
