import WireCodec.Schema.Basic

/-! # Diagnostics

What is wrong with a schema, as causes, and the wording in which it is
reported. A diagnostic points at its first label.
-/

namespace WireCodec

/-- The colour of a label: red for the fault, blue for what it conflicts with. -/
inductive LabelColor where
  | red
  | blue
deriving DecidableEq, Repr

def LabelColor.name : LabelColor → String
  | red => "Red"
  | blue => "Blue"

/-- A remark at a place in the source text. -/
structure Label where
  span : Span
  text : String
  color : LabelColor
deriving DecidableEq, Repr

/-- A report about a schema. -/
structure Diagnostic where
  span : Span
  message : String
  labels : List Label
  notes : List String
deriving DecidableEq, Repr

/-- A thing that could have stood in place of what was found. -/
inductive Expectation where
  | literal (text : String)
  | described (text : String)
  | endOfInput
  | anything
  | somethingElse
deriving DecidableEq, Repr

/-- The wording of an expectation. -/
def Expectation.text : Expectation → String
  | literal text => s!"'{text}'"
  | described text => text
  | endOfInput => "end of input"
  | anything => "any"
  | somethingElse => "something else"

/-- Whether an expectation says something that a note can repeat. -/
def Expectation.isNoted : Expectation → Bool
  | anything | somethingElse => false
  | _ => true

/-- Alternatives in a sentence. -/
def alternatives : List String → String
  | [] => "something else"
  | [one] => one
  | several => ", ".intercalate several.dropLast ++ ", or " ++ several.getLastD ""

/-- Why a source text is no schema. -/
inductive SyntaxError where
  | unexpected (span : Span) (found : Option String) (expected : List Expectation)
  | integerTooLarge (span : Span) (digits : String)
  | fieldNumberOutOfRange (span : Span)
  | enumNumberOutOfRange (span : Span) (number : Int)
  | unsupportedVersion (span : Span) (version : String)
deriving DecidableEq, Repr

/-- The largest field number: numbers have 29 bits. -/
def maxFieldNumber : Nat := 0x1fffffff

namespace SyntaxError

/-- What was found, as a message names it. -/
def foundText : Option String → String
  | some text => s!"'{text}'"
  | none => "end of input"

/-- A diagnostic with one label. -/
def report (span : Span) (message label : String) (notes : List String) : Diagnostic :=
  ⟨span, message, [⟨span, label, .red⟩], notes⟩

/-- The diagnostic for a syntax error. -/
def diagnostic : SyntaxError → Diagnostic
  | unexpected span found expected =>
    let noted := (expected.filter (·.isNoted)).map (·.text)
    report span
      (s!"found {foundText found} expected " ++ alternatives (expected.map (·.text)))
      (match found with
        | some text => s!"Unexpected '{text}'"
        | none => "Unexpected end of input")
      (if noted.isEmpty then [] else ["Expected one of: " ++ ", ".intercalate noted])
  | integerTooLarge span digits =>
    report span s!"integer literal '{digits}' is too large (must fit in u32)"
      "Unexpected end of input" []
  | fieldNumberOutOfRange span =>
    report span s!"field number must be between 1 and {maxFieldNumber}" "Unexpected end of input" []
  | enumNumberOutOfRange span number =>
    report span s!"enum value {number} does not fit in int32" "Unexpected end of input" []
  | unsupportedVersion span version =>
    report span ("unsupported syntax \"" ++ version ++ "\"") "Unexpected end of input" []

end SyntaxError

/-- Why a schema that could be read is refused. -/
inductive CheckError where
  | undefinedType (name : String) (span : Span)
  | invalidMapKey (key : Spanned String)
  | packedMap (message field : String) (option : Span)
  | packedSingular (message field : String) (option : Span)
  | packedUnpackable (message field : String) (type option : Span)
  | entryNameTaken (message : String) (field : Spanned String) (entry : String) (previous : Span)
deriving DecidableEq, Repr

/-- The diagnostic for a check error. -/
def CheckError.diagnostic : CheckError → Diagnostic
  | undefinedType name span => ⟨span, s!"undefined type `{name}`", [⟨span, "not found", .red⟩], []⟩
  | invalidMapKey key =>
    ⟨key.span, s!"invalid map key type `{key.node}`",
      [⟨key.span, "cannot be used as map key", .red⟩],
      ["map keys must be an integer type, bool or string"]⟩
  | packedMap message field option =>
    ⟨option, s!"`packed` set on map field `{field}` in message `{message}`",
      [⟨option, "map fields can't be packed", .red⟩], []⟩
  | packedSingular message field option =>
    ⟨option, s!"`packed` set on non-repeated field `{field}` in message `{message}`",
      [⟨option, "only repeated fields can be packed", .red⟩], []⟩
  | packedUnpackable message field type option =>
    ⟨type, s!"`packed` set on field `{field}` in message `{message}` of non-packable type",
      [⟨type, "string, bytes and message fields can't be packed", .red⟩,
        ⟨option, "packed here", .blue⟩], []⟩
  | entryNameTaken message field entry previous =>
    ⟨field.span,
      s!"map field `{field.node}` in message `{message}` needs entry type `{entry}`, "
        ++ "which is already taken",
      [⟨field.span, s!"entry type `{entry}`", .red⟩, ⟨previous, "already taken here", .blue⟩],
      ["rename one of the two"]⟩

/-- Why a source text does not compile. -/
inductive CompileError where
  | text (error : SyntaxError)
  | check (error : CheckError)
deriving DecidableEq, Repr

def CompileError.diagnostic : CompileError → Diagnostic
  | text error => error.diagnostic
  | check error => error.diagnostic

end WireCodec
