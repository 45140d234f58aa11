import WireCodec.Schema.Lexer

/-! # Parsing

The grammar of schemas nests no deeper than a field in a message, so it is
read with finitely many positions. A position holds the parts of the
declaration that is being read, and says what may come next; a token that may
not is the error.
-/

namespace WireCodec

/-- An enum whose values are being read. -/
structure EnumDraft where
  start : Span
  name : Spanned String
  values : List (Spanned EnumValue)
deriving Repr

/-- A message whose fields are being read. -/
structure MessageDraft where
  start : Span
  name : Spanned String
  fields : List (Spanned Field)
deriving Repr

/-- A field whose name comes next. -/
structure FieldHead where
  start : Span
  cardinality : Cardinality
  type : Spanned FieldType
deriving Repr

/-- A place in the grammar, with the parts of what is being read. -/
inductive ParsePosition where
  | item
  | versionEquals (start : Span)
  | versionText (start : Span)
  | versionEnd
  | packagePart (before : Option (Spanned String))
  | packageNext (name : Spanned String)
  | enumName (start : Span)
  | enumOpen (start : Span) (name : Spanned String)
  | enumBody (draft : EnumDraft)
  | valueEquals (draft : EnumDraft) (name : Spanned String)
  | valueNumber (draft : EnumDraft) (name : Spanned String)
  | valueNegative (draft : EnumDraft) (name : Spanned String) (minus : Span)
  | valueEnd (draft : EnumDraft) (value : EnumValue)
  | messageName (start : Span)
  | messageOpen (start : Span) (name : Spanned String)
  | messageBody (draft : MessageDraft)
  | mapOpen (draft : MessageDraft) (start : Span)
  | mapKey (draft : MessageDraft) (start : Span)
  | mapComma (draft : MessageDraft) (start : Span) (key : Spanned String)
  | mapValue (draft : MessageDraft) (start : Span) (key : Spanned String)
  | mapClose (draft : MessageDraft) (start : Span) (key value : Spanned String)
  | fieldType (draft : MessageDraft) (start : Span) (cardinality : Cardinality)
  | fieldName (draft : MessageDraft) (head : FieldHead)
  | fieldEquals (draft : MessageDraft) (head : FieldHead) (name : Spanned String)
  | fieldNumber (draft : MessageDraft) (head : FieldHead) (name : Spanned String)
  | fieldOptions (draft : MessageDraft) (start : Span) (field : Field)
  | optionName (draft : MessageDraft) (start : Span) (field : Field)
  | optionEquals (draft : MessageDraft) (start : Span) (field : Field)
  | optionValue (draft : MessageDraft) (start : Span) (field : Field)
  | optionClose (draft : MessageDraft) (start : Span) (field : Field)
  | fieldEnd (draft : MessageDraft) (start : Span) (field : Field)
deriving Repr

/-- A mark as something expected. -/
def Mark.expectation (m : Mark) : Expectation := .literal m.char.toString

/-- A keyword as something expected. -/
def Keyword.expectation (k : Keyword) : Expectation := .literal k.text

namespace ParsePosition

/-- What may come next. -/
def expected : ParsePosition → List Expectation
  | item =>
    [Keyword.version.expectation, Keyword.package.expectation, Keyword.enum.expectation,
      Keyword.message.expectation, .endOfInput]
  | versionText _ => []
  | packageNext _ => [Mark.dot.expectation, Mark.semicolon.expectation]
  | enumBody _ => [.described "identifier", Mark.closeBrace.expectation]
  | valueNumber _ _ => [Mark.minus.expectation, .described "integer"]
  | valueNegative _ _ _ | fieldNumber _ _ _ => [.described "integer"]
  | messageBody _ =>
    [Keyword.map.expectation, Keyword.required.expectation, Keyword.optional.expectation,
      Keyword.repeated.expectation, .described "identifier", Mark.closeBrace.expectation]
  | fieldOptions _ _ _ => [Mark.openBracket.expectation, Mark.semicolon.expectation]
  | optionName _ _ _ => [.described "`packed`"]
  | optionValue _ _ _ => [.described "`true` or `false`"]
  | versionEquals _ | valueEquals _ _ | fieldEquals _ _ _ | optionEquals _ _ _ =>
    [Mark.equals.expectation]
  | versionEnd | valueEnd _ _ | fieldEnd _ _ _ => [Mark.semicolon.expectation]
  | enumOpen _ _ | messageOpen _ _ => [Mark.openBrace.expectation]
  | mapOpen _ _ => [Mark.openAngle.expectation]
  | mapComma _ _ _ => [Mark.comma.expectation]
  | mapClose _ _ _ _ => [Mark.closeAngle.expectation]
  | optionClose _ _ _ => [Mark.closeBracket.expectation]
  | packagePart _ | enumName _ | messageName _ | mapKey _ _ | mapValue _ _ _ | fieldType _ _ _
  | fieldName _ _ => [.described "identifier"]

end ParsePosition

/-- A schema as far as it has been read, and the place in the grammar. -/
structure Parser where
  schema : Schema
  position : ParsePosition
deriving Repr

namespace Parser

/-- The parse of a token list before its first token. -/
def start : Parser := ⟨.empty, .item⟩

/-- The number of an enum value, if it is in range. -/
def enumNumber (number : Int) (span : Span) : Except SyntaxError (Spanned Int32) :=
  match int32? number with
  | some n => .ok ⟨n, span⟩
  | none => .error (.enumNumberOutOfRange span number)

/-- The field that a head, a name and a number make, if the number is in range. -/
def numberedField (head : FieldHead) (name : Spanned String) (number : UInt32) (span : Span) :
    Except SyntaxError Field :=
  if 1 ≤ number.toNat ∧ number.toNat ≤ maxFieldNumber then
    .ok ⟨name, head.type, ⟨number, span⟩, head.cardinality, none⟩
  else .error (.fieldNumberOutOfRange span)

/-- A message draft with one more field, which ends at a span. -/
def closeField (draft : MessageDraft) (start : Span) (field : Field) (stop : Span) : MessageDraft :=
  { draft with fields := draft.fields ++ [⟨field, start.to stop⟩] }

/-- Takes one token. -/
def step (parser : Parser) (token : Spanned Token) : Except SyntaxError Parser :=
  let here := token.span
  let goTo (position : ParsePosition) : Except SyntaxError Parser := .ok { parser with position }
  let refuse : Except SyntaxError Parser :=
    .error (.unexpected here (some token.node.spelling) parser.position.expected)
  match parser.position, token.node with
  | .item, .keyword .version => goTo (.versionEquals here)
  | .item, .keyword .package => goTo (.packagePart none)
  | .item, .keyword .enum => goTo (.enumName here)
  | .item, .keyword .message => goTo (.messageName here)
  | .versionEquals start, .mark .equals => goTo (.versionText start)
  | .versionText start, .text version =>
    if version = "proto2" ∨ version = "proto3" then goTo .versionEnd
    else .error (.unsupportedVersion (start.to here) version)
  | .versionEnd, .mark .semicolon => goTo .item
  | .packagePart none, .ident part => goTo (.packageNext ⟨part, here⟩)
  | .packagePart (some before), .ident part =>
    goTo (.packageNext ⟨before.node ++ "." ++ part, before.span.to here⟩)
  | .packageNext name, .mark .dot => goTo (.packagePart (some name))
  | .packageNext name, .mark .semicolon =>
    .ok ⟨{ parser.schema with package := some name }, .item⟩
  | .enumName start, .ident name => goTo (.enumOpen start ⟨name, here⟩)
  | .enumOpen start name, .mark .openBrace => goTo (.enumBody ⟨start, name, []⟩)
  | .enumBody draft, .ident name => goTo (.valueEquals draft ⟨name, here⟩)
  | .enumBody draft, .mark .closeBrace =>
    let closed := Spanned.mk (EnumDecl.mk draft.name draft.values) (draft.start.to here)
    .ok ⟨{ parser.schema with enums := parser.schema.enums ++ [closed] }, .item⟩
  | .valueEquals draft name, .mark .equals => goTo (.valueNumber draft name)
  | .valueNumber draft name, .mark .minus => goTo (.valueNegative draft name here)
  | .valueNumber draft name, .int n => do
    let number ← enumNumber n.toNat here
    goTo (.valueEnd draft ⟨name, number⟩)
  | .valueNegative draft name minus, .int n => do
    let number ← enumNumber (-n.toNat) (minus.to here)
    goTo (.valueEnd draft ⟨name, number⟩)
  | .valueEnd draft value, .mark .semicolon =>
    goTo (.enumBody { draft with values := draft.values ++ [⟨value, value.name.span.to here⟩] })
  | .messageName start, .ident name => goTo (.messageOpen start ⟨name, here⟩)
  | .messageOpen start name, .mark .openBrace => goTo (.messageBody ⟨start, name, []⟩)
  | .messageBody draft, .keyword .map => goTo (.mapOpen draft here)
  | .messageBody draft, .keyword .required => goTo (.fieldType draft here .required)
  | .messageBody draft, .keyword .optional => goTo (.fieldType draft here .optional)
  | .messageBody draft, .keyword .repeated => goTo (.fieldType draft here .repeated)
  | .messageBody draft, .ident type =>
    goTo (.fieldName draft ⟨here, .optional, ⟨.named type, here⟩⟩)
  | .messageBody draft, .mark .closeBrace =>
    let closed := Spanned.mk (MessageDecl.mk draft.name draft.fields) (draft.start.to here)
    .ok ⟨{ parser.schema with messages := parser.schema.messages ++ [closed] }, .item⟩
  | .mapOpen draft start, .mark .openAngle => goTo (.mapKey draft start)
  | .mapKey draft start, .ident key => goTo (.mapComma draft start ⟨key, here⟩)
  | .mapComma draft start key, .mark .comma => goTo (.mapValue draft start key)
  | .mapValue draft start key, .ident value => goTo (.mapClose draft start key ⟨value, here⟩)
  | .mapClose draft start key value, .mark .closeAngle =>
    goTo (.fieldName draft ⟨start, .repeated, ⟨.map key value, start.to here⟩⟩)
  | .fieldType draft start cardinality, .ident type =>
    goTo (.fieldName draft ⟨start, cardinality, ⟨.named type, here⟩⟩)
  | .fieldName draft head, .ident name => goTo (.fieldEquals draft head ⟨name, here⟩)
  | .fieldEquals draft head name, .mark .equals => goTo (.fieldNumber draft head name)
  | .fieldNumber draft head name, .int n => do
    let field ← numberedField head name n here
    goTo (.fieldOptions draft head.start field)
  | .fieldOptions draft start field, .mark .openBracket => goTo (.optionName draft start field)
  | .fieldOptions draft start field, .mark .semicolon
  | .fieldEnd draft start field, .mark .semicolon =>
    goTo (.messageBody (closeField draft start field here))
  | .optionName draft start field, .ident option =>
    if option = "packed" then goTo (.optionEquals draft start field) else refuse
  | .optionEquals draft start field, .mark .equals => goTo (.optionValue draft start field)
  | .optionValue draft start field, .ident value =>
    if value = "true" then
      goTo (.optionClose draft start { field with packed := some ⟨true, here⟩ })
    else if value = "false" then
      goTo (.optionClose draft start { field with packed := some ⟨false, here⟩ })
    else refuse
  | .optionClose draft start field, .mark .closeBracket => goTo (.fieldEnd draft start field)
  | _, _ => refuse

/-- The schema, if the text may end here. -/
def finish (parser : Parser) (length : Nat) : Except SyntaxError Schema :=
  match parser.position with
  | .item => .ok parser.schema
  | position => .error (.unexpected ⟨length, length⟩ none position.expected)

end Parser

/-- The schema that a list of tokens spells, in a text of the given length. -/
def parseTokens (tokens : List (Spanned Token)) (length : Nat) : Except SyntaxError Schema := do
  (← tokens.foldlM Parser.step Parser.start).finish length

/-- The schema of a source text. -/
def parse (source : String) : Except SyntaxError Schema := do
  parseTokens (← tokenize source).toList source.utf8ByteSize

end WireCodec
