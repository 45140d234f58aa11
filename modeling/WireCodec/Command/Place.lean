/-! # Places

Where a path leads, seen from a working directory. A path is followed name by
name; a dot stays, and two dots lead to the directory around. What lies above
the working directory has no known names, only the root has.
-/

namespace WireCodec

/-- Where the names of a place count from. -/
inductive Origin where
  | workingDirectory
  /-- One of the directories around the working directory. -/
  | surroundings
  | root
deriving DecidableEq, Repr

/-- A place, by the names that lead to it. -/
structure Place where
  origin : Origin
  names : List String
deriving DecidableEq, Repr

/-- The names in a path. Slashes side by side count as one. -/
def pathNames (path : String) : List String :=
  ((path.toList.splitOn '/').filter (· != [])).map String.ofList

/-- Whether a path starts at the root. -/
def isAbsolute (path : String) : Bool := path.toList.head? == some '/'

/-- Whether a path says of what it names that it is a directory. -/
def namesDirectory (path : String) : Bool := path.toList.getLast? == some '/'

/-- Whether a name is that of an entry, and no way to stay or to go back. -/
def isEntryName (name : String) : Bool := name != "." && name != ".."

/-- The longest path, in bytes. -/
def longestPath : Nat := 4095

/-- The longest name in a path, in bytes. -/
def longestName : Nat := 255

namespace Place

/-- Where a path starts. -/
def start (path : String) : Place :=
  ⟨if isAbsolute path then .root else .workingDirectory, []⟩

/-- A place in the working directory. -/
def ofPath (path : String) : Place := ⟨.workingDirectory, (pathNames path).filter isEntryName⟩

/-- The place of a name in a directory. -/
def entry (place : Place) (name : String) : Place := { place with names := place.names ++ [name] }

/-- The directory around a place. The root is around itself. -/
def around (place : Place) : Place :=
  match place.names, place.origin with
  | [], .workingDirectory => ⟨.surroundings, []⟩
  | [], origin => ⟨origin, []⟩
  | names, origin => ⟨origin, names.dropLast⟩

/-- Whether a place lies in another one, at any depth. -/
def isWithin (inner outer : Place) : Bool :=
  inner.origin == outer.origin && outer.names.isPrefixOf inner.names && inner != outer

/-- The directories that every root has. -/
def rootDirectories : List String :=
  ["bin", "boot", "dev", "etc", "home", "lib", "media", "mnt", "opt", "proc", "root", "run",
    "sbin", "srv", "sys", "tmp", "usr", "var"]

/-- Whether there is a directory at a place in any case. -/
def isDirectory : Place → Bool
  | ⟨_, []⟩ => true
  | ⟨.root, [name]⟩ => rootDirectories.contains name
  | _ => false

end Place

/-- A file that stands for a stream. -/
inductive Device where
  | null
  | input
  | output
  | errors
deriving DecidableEq, Repr

/-- The device at a place. -/
def Device.at? : Place → Option Device
  | ⟨.root, ["dev", "null"]⟩ => some .null
  | ⟨.root, ["dev", "stdin"]⟩ => some .input
  | ⟨.root, ["dev", "stdout"]⟩ => some .output
  | ⟨.root, ["dev", "stderr"]⟩ => some .errors
  | _ => none

end WireCodec
