import SignedBoot.Host.Failure

/-!
# A working directory

The files that a command sees, as a value. A path is followed part by part from the working
directory, or from the root if it starts with a slash; an empty part or a single dot stays where it
is, which only a directory allows.

Only what lies below the working directory is known. Outside of it there are the directories that
two dots and the root lead to, with nothing in them that could be read; what is written there is out
of sight.
-/

namespace SignedBoot.Cli

open Host

/-- Most bytes in a name. -/
abbrev maxName : Nat := 255

/-- Most bytes in a path. -/
abbrev maxPath : Nat := 4095

/-- The parts of a path. -/
def parts (path : String) : List String := path.splitOn "/"

/-- Whether a part of a path stays where it is. -/
def stays (part : String) : Bool := part == "" || part == "."

/-- Where a path leads. -/
inductive Place where
  /-- The working directory or one below it, by the names that lead there. -/
  | inside (names : List String)
  /-- A directory outside. -/
  | outside
  | file (contents : Bytes)

/-- Where a path starts. -/
def start (path : String) : Place :=
  if path.startsWith "/" then .outside else .inside []

/-- A directory: its files by the names that lead there, the first one being the one that counts. -/
structure Directory where
  files : List (List String × Bytes)

namespace Directory

/-- The directory with the given files. -/
def ofFiles (files : List (String × Bytes)) : Directory :=
  ⟨files.map fun file => ((parts file.1).filter fun part => !stays part, file.2)⟩

/-- Whether some names lead to a directory below. -/
def isDirectory (d : Directory) (names : List String) : Bool :=
  d.files.any fun file => names.isPrefixOf file.1 && file.1 != names

/-- Where a name leads from the directory that other names lead to. -/
def enter (d : Directory) (names : List String) (name : String) : Except IoFailure Place :=
  let names := names ++ [name]
  if maxName < name.utf8ByteSize then .error .nameTooLong
  else
    match d.files.lookup names with
    | some contents => .ok (.file contents)
    | none => if d.isDirectory names then .ok (.inside names) else .error .noSuchFile

/-- Where a part of a path leads from a place. -/
def follow (d : Directory) (place : Place) (part : String) : Except IoFailure Place :=
  match place with
  | .file _ => .error .notADirectory
  | .outside =>
    if stays part || part == ".." then .ok .outside
    else .error (if maxName < part.utf8ByteSize then .nameTooLong else .noSuchFile)
  | .inside names =>
    if stays part then .ok place
    else if part == ".." then .ok (if names.isEmpty then .outside else .inside names.dropLast)
    else d.enter names part

/-- Whether a path is one that can be followed at all. -/
def usable (path : String) : Except IoFailure Unit :=
  if path.contains '\x00' then .error .zeroInName
  else if path.isEmpty then .error .noSuchFile
  else if maxPath < path.utf8ByteSize then .error .nameTooLong
  else .ok ()

/-- What reading a file gives. -/
def read (d : Directory) (path : String) : Except IoFailure Bytes := do
  usable path
  match ← (parts path).foldlM d.follow (start path) with
  | .file contents => return contents
  | _ => .error .isDirectory

/-- The directory after writing a file under a name, if that can be done. -/
def put? (d : Directory) (place : Place) (name : String) (contents : Bytes) : Option Directory :=
  if stays name || name == ".." || maxName < name.utf8ByteSize then none
  else
    match place with
    | .file _ => none
    | .outside => some d
    | .inside names =>
      let names := names ++ [name]
      if d.isDirectory names then none
      else some ⟨(names, contents) :: d.files.filter fun file => file.1 != names⟩

/-- The directory after writing a file, if it can be written. -/
def write? (d : Directory) (path : String) (contents : Bytes) : Option Directory := do
  let place ← (do
    usable path
    (parts path).dropLast.foldlM d.follow (start path) : Except IoFailure Place).toOption
  d.put? place ((parts path).getLastD "") contents

/-- The files that are new or have changed since an earlier state. -/
def changes (new old : Directory) : List (String × Bytes) :=
  (new.files.filter fun file => old.files.lookup file.1 != some file.2).map fun file =>
    ("/".intercalate file.1, file.2)

end Directory

end SignedBoot.Cli
