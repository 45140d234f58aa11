import WireCodec.Codec.Decode
import WireCodec.Codec.Encode
import WireCodec.Codec.OfJson
import WireCodec.Codec.ToJson
import WireCodec.Command.Arguments
import WireCodec.Command.Environment
import WireCodec.Command.Inspect
import WireCodec.Json.Reader
import WireCodec.Plan.Build
import WireCodec.Render.Source
import WireCodec.Schema.Compile
import WireCodec.Text.Characters
import WireCodec.Text.Hex

/-! # Running commands

Each command loads a schema and then works on the plans for it. What goes
wrong first ends the command; nothing has been written then.
-/

namespace WireCodec

/-- Why a command failed. -/
inductive CommandError where
  | unreadable (name : String) (cause : FileError)
  | unwritable (name : String) (cause : FileError)
  /-- The schema of a name and a source text has errors. -/
  | schema (name source : String) (errors : List Diagnostic)
  /-- The standard input cannot hold both the schema and the message. -/
  | schemaOnInput (command : String)
  | unknownMessage (name : String)
  | jsonSyntax
  | json (e : JsonError)
  | hex (e : Text.Hex.Error)
  | encode (e : EncodeError)
  | decode (e : DecodeError)

/-- The wording of an error. -/
def CommandError.message : CommandError → String
  | unreadable name cause => s!"Error reading '{name}': {cause.message}"
  | unwritable name cause => s!"Error writing '{name}': {cause.message}"
  | schema name _ errors => s!"schema '{name}' has {errors.length} error(s)"
  | schemaOnInput command =>
    s!"`{command} --schema -` is not supported: stdin carries the message"
  | unknownMessage name => s!"unknown message type `{name}`"
  | jsonSyntax => "invalid JSON input"
  | json e => e.message
  | hex e => s!"invalid hex input: {e.message}"
  | encode e => s!"encode failed: {e.message}"
  | decode e => s!"decode failed: {e.message}"

/-- The path that stands for the standard streams. -/
def streamPath : String := "-"

/-- The plans for a source text, or all its errors. -/
def loadPlans (source : String) : Except (List Diagnostic) PlanSet :=
  match compile source with
  | .error errors => .error (errors.map (·.diagnostic))
  | .ok schema =>
    match schema.build with
    | .ok set => .ok set
    | .error errors => .error (errors.map (·.diagnostic))

section Conversions

variable [Base64Engine] [JsonText]

/-- The encoding, in hexadecimal, of the message that a JSON text describes. -/
def PlanSet.encodeText (set : PlanSet) (message input : String) : Except CommandError String := do
  match JsonText.parse? input with
  | none => throw .jsonSyntax
  | some json =>
    let record ← (set.ofJson message json).mapError .json
    match set.declared? message with
    | none => throw (.unknownMessage message)
    | some plan =>
      let bytes ← (set.encode plan record).mapError .encode
      return Text.Hex.encode bytes ++ "\n"

/-- The JSON text of the message that a hexadecimal text encodes. Blanks may
stand anywhere in it. -/
def PlanSet.decodeText (set : PlanSet) (message input : String) : Except CommandError String := do
  let digits := String.ofList (input.toList.filter (!Text.isBlank ·))
  let bytes ← (Text.Hex.decode digits).mapError .hex
  match set.declared? message with
  | none => throw (.unknownMessage message)
  | some plan =>
    let record ← (set.decode plan bytes).mapError .decode
    let json ← (set.toJson message record).mapError .json
    return JsonText.print .pretty json ++ "\n"

end Conversions

namespace Environment

variable {m : Type → Type} [Monad m] (environment : Environment m)

/-- The text of a file, or of the standard input. -/
def readText (path : String) : ExceptT CommandError m String := do
  let onInput := path == streamPath
  let name := if onInput then "<stdin>" else path
  match ← (if onInput then environment.readInput else environment.readFile path : m _) with
  | .error cause => throw (.unreadable name cause)
  | .ok content =>
    match content.toText? with
    | some text => return text
    | none => throw (.unreadable name .invalidText)

/-- Writes a text to a file, or to the standard output. -/
def writeText (path text : String) : ExceptT CommandError m Unit := do
  let onOutput := path == streamPath
  let name := if onOutput then "<stdout>" else path
  match ← (if onOutput then environment.writeOutput text else environment.writeFile path text :
      m _) with
  | .error cause => throw (.unwritable name cause)
  | .ok () => return

/-- The plans for the schema in a file, or on the standard input. -/
def load (path : String) : ExceptT CommandError m PlanSet := do
  let source ← environment.readText path
  match loadPlans source with
  | .ok set => return set
  | .error errors =>
    throw (.schema (if path == streamPath then "<stdin>" else path) source errors)

/-- Loads a schema, reads the standard input and prints what becomes of it. -/
def convert (command schema message : String)
    (change : PlanSet → String → Except CommandError String) : ExceptT CommandError m Unit := do
  if schema == streamPath then throw (.schemaOnInput command)
  let set ← environment.load schema
  if (set.declared? message).isNone then throw (.unknownMessage message)
  let input ← environment.readText streamPath
  match change set input with
  | .ok text => environment.writeText streamPath text
  | .error e => throw e

/-- Runs a command. -/
def run [Base64Engine] [JsonText] : Command → ExceptT CommandError m Unit
  | .generate input output mode => do
    let set ← environment.load input
    environment.writeText output (set.source mode)
  | .encode schema message =>
    environment.convert "encode" schema message (fun set input => set.encodeText message input)
  | .decode schema message =>
    environment.convert "decode" schema message (fun set input => set.decodeText message input)
  | .inspect schema => do
    let set ← environment.load schema
    environment.writeText streamPath set.table

end Environment

end WireCodec
