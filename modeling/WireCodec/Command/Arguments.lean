import WireCodec.Render.Enum

/-! # Command line arguments

A command is named by the first argument and has options, each of which needs
a value. Options have a long name and most of them a letter; the value is the
next argument, or joined to the option.
-/

namespace WireCodec

/-- What the program is asked to do. -/
inductive Command where
  /-- Write the source text for a schema. -/
  | generate (input output : String) (mode : DeriveMode)
  /-- Read a message as JSON and print its encoding. -/
  | encode (schema message : String)
  /-- Read the encoding of a message and print it as JSON. -/
  | decode (schema message : String)
  /-- Print the fields of all messages. -/
  | inspect (schema : String)
deriving DecidableEq, Repr

/-- What a list of arguments asks for, if it is no command. -/
inductive ArgumentError where
  | help
  | misuse
deriving DecidableEq, Repr

/-- An option of a command. -/
inductive CommandOption where
  | input
  | output
  | serde
  | schema
  | message
deriving DecidableEq, Repr

namespace CommandOption

def longName : CommandOption → String
  | input => "input"
  | output => "output"
  | serde => "serde"
  | schema => "schema"
  | message => "message"

def letter? : CommandOption → Option Char
  | input => some 'i'
  | output => some 'o'
  | serde => none
  | schema => some 's'
  | message => some 'm'

end CommandOption

/-- The names of a derive mode on the command line. -/
def DeriveMode.ofName? (name : String) : Option DeriveMode :=
  if name = "never" then some .never
  else if name = "always" then some .always
  else if name = "feature" then some .feature
  else none

namespace CommandOption

/-- Whether a text may be the value of an option. -/
def accepts (option : CommandOption) (value : String) : Bool :=
  match option with
  | serde => (DeriveMode.ofName? value).isSome
  | _ => true

end CommandOption

/-- The options that were read so far, and the one that waits for its value. -/
structure OptionReader where
  values : List (CommandOption × String)
  pending : Option CommandOption
deriving DecidableEq, Repr

namespace OptionReader

/-- The value of an option. -/
def value? (reader : OptionReader) (option : CommandOption) : Option String :=
  (reader.values.find? (·.1 == option)).map (·.2)

/-- Gives an option its value, which it may get only once. -/
def assign (reader : OptionReader) (option : CommandOption) (value : String) :
    Except ArgumentError OptionReader :=
  if (reader.value? option).isSome || !option.accepts value then .error .misuse
  else .ok ⟨(option, value) :: reader.values, none⟩

/-- Reads an option by its long name, with the value joined by an equals sign
if there is one. -/
def readLong (known : List CommandOption) (reader : OptionReader) (body : List Char) :
    Except ArgumentError OptionReader :=
  let (name, rest) := body.span (· != '=')
  match known.find? (·.longName.toList == name), rest with
  | some option, [] => .ok { reader with pending := some option }
  | some option, _ :: value => reader.assign option (String.ofList value)
  | none, rest => .error (if name = ['h', 'e', 'l', 'p'] ∧ rest = [] then .help else .misuse)

/-- Reads an option by its letter, with the value joined to it if there is
one. -/
def readShort (known : List CommandOption) (reader : OptionReader) (letter : Char)
    (rest : List Char) : Except ArgumentError OptionReader :=
  match known.find? (·.letter? == some letter), rest with
  | some option, [] => .ok { reader with pending := some option }
  | some option, '=' :: value => reader.assign option (String.ofList value)
  | some option, value => reader.assign option (String.ofList value)
  | none, _ => .error (if letter = 'h' then .help else .misuse)

/-- Reads an argument. A lone hyphen is a value like any other text, and two
hyphens alone end the options. -/
def read (known : List CommandOption) (reader : OptionReader) (argument : String) :
    Except ArgumentError OptionReader :=
  match reader.pending, argument.toList with
  | some _, '-' :: _ :: _ => .error .misuse
  | none, '-' :: '-' :: body => reader.readLong known body
  | none, '-' :: letter :: rest => reader.readShort known letter rest
  | some option, _ => reader.assign option argument
  | none, _ => .error .misuse

/-- The values of all options of a list of arguments. -/
def readAll (known : List CommandOption) (reader : OptionReader) :
    List String → Except ArgumentError OptionReader
  | [] => if reader.pending.isSome then .error .misuse else .ok reader
  | ["--"] => if reader.pending.isSome then .error .misuse else .ok reader
  | argument :: rest => do readAll known (← reader.read known argument) rest

/-- The value of an option that has to be there. -/
def required (reader : OptionReader) (option : CommandOption) : Except ArgumentError String :=
  match reader.value? option with
  | some value => .ok value
  | none => .error .misuse

end OptionReader

namespace Command

/-- The names of all commands. -/
def names : List String := ["generate", "encode", "decode", "inspect"]

/-- The options that a command of a name has. -/
def options (name : String) : List CommandOption :=
  if name = "generate" then [.input, .output, .serde]
  else if name = "inspect" then [.schema]
  else [.schema, .message]

/-- The command of a name with its options. -/
def ofOptions (name : String) (reader : OptionReader) : Except ArgumentError Command := do
  if name = "generate" then
    let mode := (reader.value? .serde).bind DeriveMode.ofName?
    return generate (← reader.required .input) (← reader.required .output) (mode.getD .never)
  else if name = "inspect" then return inspect (← reader.required .schema)
  else
    let schema ← reader.required .schema
    let message ← reader.required .message
    return if name = "encode" then encode schema message else decode schema message

/-- What the arguments behind the word `help` ask for. -/
def helpOn : List String → ArgumentError
  | [] => .help
  | [name] => if names.contains name || name == "help" then .help else .misuse
  | _ => .misuse

/-- The command of a list of arguments. -/
def ofArguments : List String → Except ArgumentError Command
  | [] => .error .misuse
  | name :: arguments =>
    if names.contains name then do
      ofOptions name (← OptionReader.readAll (options name) ⟨[], none⟩ arguments)
    else if name = "help" then .error (helpOn arguments)
    else if name = "--help" ∨ name.toList.take 2 = ['-', 'h'] then .error .help
    else .error .misuse

end Command

end WireCodec
