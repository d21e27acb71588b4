/-!
# Directories

Where the command line finds its sources: a tree of files below the directory in which it runs. A
path goes from there name by name. Empty names and single dots count for nothing, not even for
the length of the path, so the empty path is the directory itself; two dots lead back. Nothing is
known of what lies outside.
-/

namespace Rubylet.CommandLine

/-- Why a source cannot be read. -/
inductive ReadError where
  | notFound
  | isDirectory
  | notDirectory
  | nameTooLong
  /-- Any other reason, in the words of the system. -/
  | other (reason : String)
  deriving Repr, DecidableEq, Inhabited

/-- The words for an error. -/
def ReadError.reason : ReadError → String
  | notFound => "No such file or directory"
  | isDirectory => "Is a directory"
  | notDirectory => "Not a directory"
  | nameTooLong => "File name too long"
  | other reason => reason

/-- What a name stands for. -/
inductive Entry where
  | folder
  | file (content : ByteArray)

/-- A tree of files, by their paths. -/
structure Directory where
  entries : List (List String × Entry)

namespace Directory

/-- The names on a path. -/
def names (path : String) : List String :=
  ((path.splitOn "/").filter fun name => name ≠ "" && name ≠ ".")

/-- Where a path starts, as it is written: two slashes in front are kept, more of them are one. -/
def root (path : String) : String :=
  if path.startsWith "//" && !path.startsWith "///" then "//"
  else if path.startsWith "/" then "/"
  else ""

/-- A path without what counts for nothing. -/
def normalize (path : String) : String :=
  let short := root path ++ "/".intercalate (names path)
  if short.isEmpty then "." else short

/-- What a list of names leads to. The folders on the way to an entry are there too. -/
def entry? (d : Directory) (path : List String) : Option Entry :=
  if path = [] then some .folder
  else
    match d.entries.find? fun (p, _) => p = path with
    | some (_, entry) => some entry
    | none => if d.entries.any fun (p, _) => path.isPrefixOf p then some .folder else none

/-- The longest name that can be looked up, in bytes. -/
def maxNameSize : Nat := 255

/-- The longest path that can be looked up, in bytes, without what counts for nothing. -/
def maxPathSize : Nat := 4095

/-- Is there a folder at a place? All that is known of a place outside is that it is one. -/
def requireFolder (d : Directory) : Option (List String) → Except ReadError Unit
  | none => .ok ()
  | some place =>
    match d.entry? place with
    | some .folder => .ok ()
    | some (.file _) => .error .notDirectory
    | none => .error .notFound

/-- The place around a place. -/
def around : Option (List String) → Option (List String)
  | none | some [] => none
  | some place => some place.dropLast

/-- Follows names from a place; a place outside the tree is not known by names. -/
def follow (d : Directory) (place? : Option (List String)) :
    List String → Except ReadError ByteArray
  | [] =>
    match place? with
    | none => .error .isDirectory
    | some place =>
      match d.entry? place with
      | some (.file content) => .ok content
      | some .folder => .error .isDirectory
      | none => .error .notFound
  | name :: rest => do
    -- The place must be a folder before the name is looked at, also when the name leads out of it.
    d.requireFolder place?
    if maxNameSize < name.utf8ByteSize then throw .nameTooLong
    else if name = ".." then d.follow (around place?) rest
    else
      match place? with
      | some place => d.follow (some (place ++ [name])) rest
      | none => throw .notFound

/-- The content of the file at a path. -/
def read (d : Directory) (path : String) : Except ReadError ByteArray :=
  if maxPathSize < (normalize path).utf8ByteSize then .error .nameTooLong
  else d.follow (if path.startsWith "/" then none else some []) (names path)

end Directory

end Rubylet.CommandLine
