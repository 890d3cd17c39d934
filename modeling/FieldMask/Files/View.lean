import FieldMask.Json

/-!
# Files as a program sees them

A `FileView` says what is found at a path, which files lie below a directory, and what the network
answers to a URL, at one moment. Programs are functions of such a view; a view is taken of a real
directory or of a tree of files held as a value.
-/

namespace FieldMask

/-- What is found at a path. -/
inductive Found
  | nothing
  | directory
  | file (content : ByteArray)

/-- What a program sees of files, and of the network if it has one. -/
structure FileView where
  /-- What is at a path. -/
  find : String → Found
  /-- The paths of the files below the directory at a path, each the path of the directory joined
  with names. -/
  below : String → List String
  /-- The document that a URL is answered by, or else the reason that there is none. A program can
  be built without a network. -/
  network : Option (String → Except String Json) := none

end FieldMask
