import WireCodec.Command.Environment
import WireCodec.Command.Place

/-! # Directories as values

A working directory with the files in and around it, and the standard streams.
Directories exist as far as there are files in them. Whether a path leads to a
file is found out name by name, so of two things that are wrong with it the
one nearer to the start is reported.
-/

namespace WireCodec

/-- The files that are known, what can still be read from the standard input,
and what was written to the standard streams. -/
structure Directory where
  files : List (Place × Bytes)
  input : Bytes
  output : String
  errors : String
deriving Repr

/-- What stands at a place. -/
inductive Node where
  | directory
  | file (content : Bytes)
  | device (device : Device)
deriving DecidableEq, Repr

namespace Directory

/-- The content of a file. -/
def file? (directory : Directory) (place : Place) : Option Bytes :=
  (directory.files.find? (·.1 == place)).map (·.2)

variable (directory : Directory)

/-- What stands at a place, if anything. -/
def node? (place : Place) : Option Node :=
  if place.isDirectory || directory.files.any (·.1.isWithin place) then some .directory
  else
    match Device.at? place with
    | some device => some (.device device)
    | none => (directory.file? place).map .file

/-- Refuses a place that is no directory. -/
def enter (place : Place) : Except FileError Unit :=
  match directory.node? place with
  | some .directory => .ok ()
  | some _ => .error .notDirectory
  | none => .error .notFound

/-- The place that a name leads to from a directory. -/
def follow (place : Place) (name : String) : Except FileError Place := do
  directory.enter place
  if name = "." then return place
  else if name = ".." then return place.around
  else if longestName < name.utf8ByteSize then throw .nameTooLong
  else return place.entry name

/-- The place that names lead to from a directory. -/
def followAll (place : Place) (names : List String) : Except FileError Place :=
  names.foldlM directory.follow place

/-- Refuses a path of a length that no path has. -/
def checkPath (path : String) : Except FileError Unit :=
  if path.isEmpty then .error .notFound
  else if longestPath < path.utf8ByteSize then .error .nameTooLong
  else .ok ()

/-- What a path leads to, if it can be read. -/
def readable (path : String) : Except FileError Node := do
  checkPath path
  let place ← directory.followAll (.start path) (pathNames path)
  match directory.node? place with
  | none => throw .notFound
  | some .directory => throw .isDirectory
  | some node => if namesDirectory path then throw .notDirectory else return node

/-- The place that a path leads to, if a file can be written there. A path that
ends with a slash names a directory, whether there is one or not. -/
def writable (path : String) : Except FileError Place := do
  checkPath path
  let names := pathNames path
  match names.getLast? with
  | none => throw .isDirectory
  | some name =>
    let parent ← directory.followAll (.start path) names.dropLast
    directory.enter parent
    if isEntryName name && namesDirectory path then throw .isDirectory
    let place ← directory.follow parent name
    match directory.node? place with
    | some .directory => throw .isDirectory
    | _ => return place

/-- The content of the file that a path leads to. -/
def read (path : String) : Except FileError Bytes := do
  match ← directory.readable path with
  | .file content => return content
  | .device .input => return directory.input
  | _ => return #[]

/-- The directory with a text written to a place. -/
def write (place : Place) (text : String) : Directory :=
  match Device.at? place with
  | some .output => { directory with output := directory.output ++ text }
  | some .errors => { directory with errors := directory.errors ++ text }
  | some _ => directory
  | none =>
    let others := directory.files.filter (·.1 != place)
    { directory with files := (place, .ofText text) :: others }

/-- The operations of a command on a directory. What is read from the standard
input is gone. -/
def environment : Environment (StateM Directory) where
  readFile path := do
    let directory ← get
    match directory.readable path with
    | .ok (.device .input) => set { directory with input := #[] }
    | _ => pure ()
    return directory.read path
  readInput := modifyGet fun directory => (.ok directory.input, { directory with input := #[] })
  writeFile path text := do
    match (← get).writable path with
    | .ok place =>
      modify (·.write place text)
      return .ok ()
    | .error e => return .error e
  writeOutput text := do
    modify fun directory => { directory with output := directory.output ++ text }
    return .ok ()

end Directory

end WireCodec
