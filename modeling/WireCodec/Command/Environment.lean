import WireCodec.Bytes

/-! # What a command works with

A command reads files and the standard input, and writes files and the
standard output. It is written over these four operations, so it can be run on
the real ones and on a directory that is a value.
-/

namespace WireCodec

/-- Why a file cannot be read or written. -/
inductive FileError where
  | notFound
  | notDirectory
  | isDirectory
  | nameTooLong
  | invalidText
  | other (cause : String)
deriving DecidableEq, Repr

/-- The wording of a file error. -/
def FileError.message : FileError → String
  | notFound => "No such file or directory (os error 2)"
  | notDirectory => "Not a directory (os error 20)"
  | isDirectory => "Is a directory (os error 21)"
  | nameTooLong => "File name too long (os error 36)"
  | invalidText => "stream did not contain valid UTF-8"
  | other cause => cause

/-- The operations of a command on the world around it. -/
structure Environment (m : Type → Type) where
  readFile : String → m (Except FileError Bytes)
  readInput : m (Except FileError Bytes)
  writeFile : String → String → m (Except FileError Unit)
  writeOutput : String → m (Except FileError Unit)

end WireCodec
