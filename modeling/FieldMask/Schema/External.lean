import FieldMask.Schema.Reference

/-!
# References to other documents

Before the references of a document are followed, the other documents that they mean are looked for.
None is ever found, so `Json.externalFault?` is about the first reference to another document. Only
the references of the schemas in a document are met, so none in a default value or a choice, and
those of a schema are met before those of the schemas in it. This too is what the validator is
assumed to do, which is not part of the program.
-/

namespace FieldMask

namespace Json

/-- Join two lists of levels, each level with its like. -/
def joinLevels (as bs : List (List String)) : List (List String) :=
  List.zipWithAll (fun a b => a.getD [] ++ b.getD []) as bs

mutual

/-- The references of a schema and of the schemas in it, level by level. -/
def referenceLevels : Json → List (List String)
  | .obj members => levelsOfMembers members
  | _ => []

/-- The references that the members of a schema have. -/
def levelsOfMembers : Members → List (List String)
  | [] => []
  | (name, v) :: rest => joinLevels (levelsOfMember name v) (levelsOfMembers rest)

/-- The references that a member of a schema has: one of its own, or those of schemas in it. -/
def levelsOfMember (name : String) : Json → List (List String)
  | .str text => if name = "$ref" then [[text]] else []
  | .arr items => if name = "allOf" then [] :: levelsOfSchemas items else []
  | .obj members =>
    if name = "items" ∨ name = "additionalProperties" then [] :: levelsOfMembers members
    else if name = "definitions" ∨ name = "properties" then [] :: levelsOfNamed members
    else []
  | _ => []

/-- The references of schemas. -/
def levelsOfSchemas : List Json → List (List String)
  | [] => []
  | v :: rest => joinLevels v.referenceLevels (levelsOfSchemas rest)

/-- The references of named schemas. -/
def levelsOfNamed : Members → List (List String)
  | [] => []
  | (_, v) :: rest => joinLevels v.referenceLevels (levelsOfNamed rest)

end

end Json

namespace Reference

/-- Why the document of a URI is not found. -/
def unavailable (u : Uri) : Unavailable :=
  match String.ofList (u.scheme.getD []) with
  | "file" => .noFile
  | "http" | "https" =>
    .unreachable (if u.path.isEmpty then { u with path := ['/'] } else u).text
  | scheme => .unknownScheme scheme

/-- What is wrong with references to other documents: one that is no URI, or the first one. -/
def externalFault? (texts : List String) : Option ReferenceFault :=
  match texts.mapM uri with
  | .error fault => some fault
  | .ok uris =>
    (uris.map Uri.document).find? (· ≠ base) |>.map fun document =>
      .elsewhere document.text (unavailable document)

end Reference

/--
What is wrong with the references of a document to other documents. A text that begins with the mark
of a fragment is always a reference to the document itself.
-/
def Json.externalFault? (document : Json) : Option ReferenceFault :=
  Reference.externalFault?
    (document.referenceLevels.flatten.filter fun text => text.toList.head? ≠ some '#')

end FieldMask
