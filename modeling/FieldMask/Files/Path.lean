import FieldMask.Text.Split

/-!
# Paths of files

A path is a text whose pieces are separated by slashes. Empty pieces and single dots inside it have
no meaning; a single dot at the very beginning is kept as a component of its own. Paths are compared
component by component.
-/

namespace FieldMask

/-- A component of a path. -/
inductive PathComponent
  | root
  | current
  | parent
  | name (text : String)
  deriving DecidableEq

namespace PathComponent

/-- The rank of a component among those of other forms. -/
def rank : PathComponent → Nat
  | .root => 0
  | .current => 1
  | .parent => 2
  | .name _ => 3

/-- Whether a component comes before another or is equal to it. -/
def le : PathComponent → PathComponent → Bool
  | .name a, .name b => a ≤ b
  | a, b => a.rank ≤ b.rank

end PathComponent

namespace Path

/-- The pieces of a path between slashes. -/
def pieces (path : String) : List String := (splitAt '/' path.toList).map String.ofList

/-- Whether a piece has no meaning inside a path. -/
def isVoid (piece : String) : Bool := piece == "" || piece == "."

/-- The component that a piece with a meaning is. -/
def componentOf (piece : String) : PathComponent := if piece = ".." then .parent else .name piece

/-- The components of a path. -/
def components (path : String) : List PathComponent :=
  let inner (ps : List String) := (ps.filter (!isVoid ·)).map componentOf
  match pieces path with
  | "" :: rest => if path = "" then [] else .root :: inner rest
  | "." :: rest => .current :: inner rest
  | ps => inner ps

/-- Whether a list of components comes before another or is equal to it. -/
def leComponents : List PathComponent → List PathComponent → Bool
  | [], _ => true
  | _ :: _, [] => false
  | a :: as, b :: bs => if a = b then leComponents as bs else a.le b

/-- Whether a path comes before another or is equal to it. -/
def le (a b : String) : Bool := leComponents (components a) (components b)

/-- A path with a name added to it. -/
def join (path name : String) : String :=
  if path = "" || path.endsWith "/" then path ++ name else path ++ "/" ++ name

/-- The pieces behind the first `count` ones that have a meaning. -/
def dropComponents : Nat → List String → List String
  | 0, ps => ps.dropWhile isVoid
  | _ + 1, [] => []
  | count + 1, p :: ps =>
    if isVoid p then dropComponents (count + 1) ps else dropComponents count ps

/-- Pieces without those at the end that have no meaning, with slashes between them. -/
def joined (ps : List String) : String := "/".intercalate (ps.reverse.dropWhile isVoid).reverse

/-- The path without the pieces at its end that have no meaning. -/
def withoutVoidEnd (path : String) : String :=
  match pieces path with
  | "" :: rest => if path = "" then "" else "/" ++ joined rest
  | "." :: rest => if rest.all isVoid then "." else "./" ++ joined rest
  | ps => joined ps

/--
A path as seen from the directory at another one: without the components of that path, if they are
its first ones, and unchanged otherwise.
-/
def relativeTo (base path : String) : String :=
  let head := components base
  if !head.isPrefixOf (components path) then path
  else match head with
    | [] => withoutVoidEnd path
    | .root :: names | .current :: names =>
      joined (dropComponents names.length ((pieces path).drop 1))
    | names => joined (dropComponents names.length (pieces path))

/-- The last component of a path, if that is a name. -/
def fileName? (path : String) : Option String :=
  match (components path).getLast? with
  | some (.name text) => some text
  | _ => none

/-- Whether the name of a path ends in `.json` behind at least one character. -/
def isJsonFile (path : String) : Bool :=
  match fileName? path with
  | some name => name.endsWith ".json" && name != ".json"
  | none => false

end Path

end FieldMask
