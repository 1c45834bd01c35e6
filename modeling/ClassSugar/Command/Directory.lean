import ClassSugar.Text.Words

/-!
# A directory of files

The files that a run reads and writes, as a value. An entry is known by its place: the names on the
way to it from the working directory. A directory exists if it is listed, or if something in it is.

A path is followed name by name, and every name but the last has to be a directory. It may lead out
of the working directory: upwards, where there is always another directory, or from the root, where
only what every system has is known. Such places start with `..` or with `/`. Names and paths have a
greatest length, counted in bytes.
-/

namespace ClassSugar.Command

/-- Why a file cannot be read. -/
inductive ReadError where
  | notFound
  | isDirectory
  | notDirectory
  | nameTooLong
  /-- Its bytes are no text. -/
  | notText
  /-- Anything else that a system reports. -/
  | other (message : String)
  deriving DecidableEq, Repr, Inhabited

/-- The error in words. -/
def ReadError.message : ReadError → String
  | .notFound => "No such file or directory (os error 2)"
  | .isDirectory => "Is a directory (os error 21)"
  | .notDirectory => "Not a directory (os error 20)"
  | .nameTooLong => "File name too long (os error 36)"
  | .notText => "stream did not contain valid UTF-8"
  | .other message => message

namespace Path

/-- The greatest length of a name, in bytes. -/
def nameLimit : Nat :=
  255

/-- The greatest length of a path, in bytes. -/
def limit : Nat :=
  4095

/-- The names in a path. An empty one, and a dot, lead nowhere else. -/
def names (path : String) : List String :=
  (Text.parts '/' path).filter fun name => name != "" && name != "."

/-- The name of the file that a path leads to. A path that ends by going up has none. -/
def fileName? (path : String) : Option String :=
  (names path).getLast?.filter (· != "..")

/-- The path of a file in a directory. -/
def join (directory name : String) : String :=
  if Text.endsWithChar directory '/' then directory ++ name else directory ++ "/" ++ name

end Path

/-- What a name stands for. -/
inductive Entry where
  | file (text : String)
  | directory
  deriving DecidableEq, Repr, Inhabited

/-- The files below the working directory. -/
structure Directory where
  entries : List (List String × Entry)
  deriving DecidableEq, Repr, Inhabited

namespace Directory

/-- The files with the given paths and texts; a path without a text is a directory. -/
def ofFiles (files : List (String × Option String)) : Directory where
  entries := files.map fun (path, text) => (Path.names path, text.elim .directory .file)

/-! ### Places -/

/-- The place of the root. -/
def root : List String :=
  ["/"]

/-- The place of the file that takes any text and keeps none. -/
def nullDevice : List String :=
  root ++ ["dev", "null"]

/-- What every system has outside of the working directory. -/
def common : List (List String × Entry) :=
  [(root, .directory), (root ++ ["tmp"], .directory), (nullDevice, .file "")]

/-- Whether a place is the working directory or a directory above it. -/
def isAbove (place : List String) : Bool :=
  place.all (· == "..")

/-- Whether a place lies in the working directory. -/
def isInside (place : List String) : Bool :=
  place.head?.any fun name => name != ".." && !root.contains name

/-- The directory that a place lies in. The root lies in itself. -/
def parent (place : List String) : List String :=
  if place = root then root
  else if isAbove place then place ++ [".."]
  else place.dropLast

/-- What stands at a place. -/
def get? (d : Directory) (place : List String) : Option Entry :=
  let known := d.entries ++ common
  match known.lookup place with
  | some entry => some entry
  | none =>
    if isAbove place || known.any fun e => place.isPrefixOf e.1 then some .directory else none

/-! ### Reading and writing -/

/-- Follows names from a place that was reached. -/
def follow (d : Directory) (place : List String) : List String → Except ReadError (List String)
  | [] => .ok place
  | name :: rest =>
    match d.get? place with
    | none => .error .notFound
    | some (.file _) => .error .notDirectory
    | some .directory =>
      if name = "" ∨ name = "." then d.follow place rest
      else if name = ".." then d.follow (parent place) rest
      else if Path.nameLimit < name.utf8ByteSize then .error .nameTooLong
      else d.follow (place ++ [name]) rest

/-- The place that a path leads to. -/
def resolve (d : Directory) (path : String) : Except ReadError (List String) :=
  if Path.limit < path.utf8ByteSize then .error .nameTooLong
  else d.follow (if Text.startsWith path "/" then root else []) (Text.parts '/' path)

/-- The text of a file. -/
def read (d : Directory) (path : String) : Except ReadError String :=
  match d.resolve path with
  | .error e => .error e
  | .ok place =>
    match d.get? place with
    | none => .error .notFound
    | some .directory => .error .isDirectory
    | some (.file text) => .ok text

/-- Entries with a file replaced or added. -/
def put (place : List String) (text : String) :
    List (List String × Entry) → List (List String × Entry)
  | [] => [(place, .file text)]
  | e :: rest => if e.1 = place then (place, .file text) :: rest else e :: put place text rest

/-- The directory with a file written, if it can be. -/
def write? (d : Directory) (path text : String) : Option Directory :=
  match d.resolve path with
  | .error _ => none
  | .ok place =>
    match d.get? place with
    | some .directory => none
    | _ => some (if place = nullDevice then d else ⟨put place text d.entries⟩)

/-- The files in the working directory whose texts are not those of an earlier directory. -/
def changedSince (d earlier : Directory) : List (String × String) :=
  d.entries.filterMap fun (place, entry) =>
    match entry with
    | .file text =>
      if isInside place && earlier.entries.lookup place != some entry then
        some (String.intercalate "/" place, text)
      else
        none
    | .directory => none

end Directory

end ClassSugar.Command
