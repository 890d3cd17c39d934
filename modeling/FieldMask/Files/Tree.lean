import FieldMask.Files.Path
import FieldMask.Files.View
import FieldMask.Keyed

/-!
# Trees of files

A tree of files is a value: a directory with named files and directories. Paths are resolved from
its root, piece by piece; every piece but the last has to be a directory, and two dots lead back to
the directory around. Outside of the tree there are the directories above it, and nothing else.
-/

namespace FieldMask

/-- A file or a directory. -/
inductive FileEntry
  | file (content : ByteArray)
  | directory (entries : List (String × FileEntry))

/-- Why a path does not lead to an entry, or nothing can be written there. -/
inductive PathFault
  | missing
  | notDirectory
  | isDirectory
  deriving DecidableEq

/-- The wording of the fault. -/
def PathFault.message : PathFault → String
  | .missing => "No such file or directory (os error 2)"
  | .notDirectory => "Not a directory (os error 20)"
  | .isDirectory => "Is a directory (os error 21)"

namespace FileEntry

/-- The directory without entries. -/
def empty : FileEntry := .directory []

/-- The entry that names lead to. -/
def find? (e : FileEntry) : List String → Option FileEntry
  | [] => some e
  | name :: rest =>
    match e with
    | .directory entries => (entries.lookup name).bind (·.find? rest)
    | .file _ => none

/-- Whether the entry is a directory. -/
def isDirectory : FileEntry → Bool
  | .directory _ => true
  | .file _ => false

/-- The entries of a directory. -/
def entries : FileEntry → List (String × FileEntry)
  | .directory entries => entries
  | .file _ => []

/-- Put an entry where names lead, with the directories on the way. -/
def put (new : FileEntry) (e : FileEntry) : List String → FileEntry
  | [] => new
  | name :: rest =>
    let inner := (e.entries.lookup name).getD empty
    .directory (Keyed.put name (new.put inner rest) e.entries)

mutual

/-- The paths of the files in an entry at a path. -/
def filesAt (path : String) : FileEntry → List String
  | .file _ => [path]
  | .directory entries => filesIn path entries

/-- The paths of the files in entries of the directory at a path. -/
def filesIn (path : String) : List (String × FileEntry) → List String
  | [] => []
  | (name, e) :: rest => filesAt (Path.join path name) e ++ filesIn path rest

end

/-- Whether pieces lead only to directories around the one that they begin in. -/
def leadsUp (ps : List String) : Bool := ps.all fun piece => Path.isVoid piece || piece == ".."

/--
The names that the pieces of a path lead along, from the directory that names lead to. A directory
above the tree has no names; it is reported as a directory.
-/
def resolve (root : FileEntry) (here : List String) : List String → Except PathFault (List String)
  | [] => .ok here
  | piece :: rest =>
    match root.find? here with
    | some (.directory _) =>
      if Path.isVoid piece then root.resolve here rest
      else if piece = ".." then
        if here.isEmpty then .error (if leadsUp rest then .isDirectory else .missing)
        else root.resolve here.dropLast rest
      else if (root.find? (here ++ [piece])).isSome then root.resolve (here ++ [piece]) rest
      else .error .missing
    | _ => .error .notDirectory

/-- The names that a path leads along. -/
def locate (root : FileEntry) (path : String) : Except PathFault (List String) :=
  if path = "" then .error .missing
  else if path.startsWith "/" then
    .error (if leadsUp (Path.pieces path) then .isDirectory else .missing)
  else root.resolve [] (Path.pieces path)

/-- What is found at a path. -/
def found (root : FileEntry) (path : String) : Found :=
  match root.locate path with
  | .error .isDirectory => .directory
  | .error _ => .nothing
  | .ok names =>
    match root.find? names with
    | some (.file content) => .file content
    | some (.directory _) => .directory
    | none => .nothing

/-- The paths of the files below the directory at a path. -/
def filesBelow (root : FileEntry) (path : String) : List String :=
  match root.locate path with
  | .error _ => []
  | .ok names =>
    match root.find? names with
    | some (.directory entries) => filesIn path entries
    | _ => []

/-- What a program without a network sees of the tree. -/
def view (root : FileEntry) : FileView := { find := root.found, below := root.filesBelow }

/--
Write a file at a path. The directory that it is in has to be there, and the path has to end in the
name of a file: neither in a slash nor in dots.
-/
def write (root : FileEntry) (path : String) (content : ByteArray) : Except PathFault FileEntry :=
  let ps := Path.pieces path
  match ps.reverse.dropWhile (· == "") with
  | [] => .error (if path = "" then .missing else .isDirectory)
  | name :: directories =>
    if path.startsWith "/" then .error .missing
    else do
      let here ← root.resolve [] directories.reverse
      match root.find? here with
      | some (.directory entries) =>
        if Path.isVoid name || name = ".." || path.endsWith "/" then throw .isDirectory
        else if ((entries.lookup name).map isDirectory).getD false then throw .isDirectory
        else return put (.file content) root (here ++ [name])
      | _ => throw .notDirectory

end FileEntry

end FieldMask
