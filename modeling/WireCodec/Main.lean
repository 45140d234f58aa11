import WireCodec.Command.Run

/-! # The command line

Runs the command that the arguments name on the files and the standard
streams. The exit status is 2 for arguments that name no command, and 1 for a
command that fails.
-/

namespace WireCodec

/-- How the program is called. -/
def usage : String :=
  "Usage: protowirec <COMMAND>\n\n" ++
    "  generate --input FILE --output FILE [--serde never|always|feature]\n" ++
    "  encode --schema FILE --message NAME\n" ++
    "  decode --schema FILE --message NAME\n" ++
    "  inspect --schema FILE\n"

/-- The diagnostic as lines of text. -/
def Diagnostic.lines (d : Diagnostic) (name : String) : String :=
  let place (span : Span) : String := s!"{name}:{span.start}-{span.stop}"
  let labels := d.labels.map fun label => s!"  {place label.span}: {label.text}\n"
  let notes := d.notes.map fun note => s!"  note: {note}\n"
  s!"Error: {d.message}\n  at {place d.span}\n" ++ String.join labels ++ String.join notes

/-- The file error that an error of the system stands for. -/
def FileError.ofSystem : IO.Error → FileError
  | .noFileOrDirectory _ _ _ => .notFound
  | .inappropriateType _ 20 _ => .notDirectory
  | .inappropriateType _ 21 _ => .isDirectory
  | .invalidArgument _ 36 _ => .nameTooLong
  | e => .other (toString e)

/-- Runs an action and keeps its error as a value. -/
def attempt {α : Type} (action : IO α) : IO (Except FileError α) := do
  match ← action.toBaseIO with
  | .ok a => return .ok a
  | .error e => return .error (.ofSystem e)

/-- All bytes that are left in a stream. -/
partial def readStream (stream : IO.FS.Stream) (read : ByteArray) : IO ByteArray := do
  let chunk ← stream.read 65536
  if chunk.isEmpty then return read else readStream stream (read ++ chunk)

/-- The files and streams of the system. -/
def systemEnvironment : Environment IO where
  readFile path := attempt do return (← IO.FS.readBinFile path).data
  readInput := attempt do return (← readStream (← IO.getStdin) .empty).data
  writeFile path text := attempt (IO.FS.writeFile path text)
  writeOutput text := attempt do
    let output ← IO.getStdout
    output.putStr text
    output.flush

/-- Reports an error on the standard error stream. -/
def report : CommandError → IO Unit
  | .schema name _ errors => IO.eprint (String.join (errors.map (·.lines name)))
  | e => IO.eprintln e.message

end WireCodec

open WireCodec in
def main (arguments : List String) : IO UInt32 := do
  match Command.ofArguments arguments with
  | .error .help =>
    IO.print usage
    return 0
  | .error .misuse =>
    IO.eprint usage
    return 2
  | .ok command =>
    match ← (systemEnvironment.run command).run with
    | .ok () => return 0
    | .error e =>
      report e
      return 1
