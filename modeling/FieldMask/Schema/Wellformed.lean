import FieldMask.Json.Equality
import FieldMask.Schema.Violation

/-!
# Well-formed schemas

A schema is itself a value of a prescribed form: a boolean, or an object whose keywords have values
of theirs. `Json.schemaViolation?` finds the first part of a value that keeps it from being one. The
keywords are visited in the order of the vocabularies that define them, whatever their order in the
schema, and the parts of a keyword's value before the next keyword. The validator, which is not part
of the program, looks for such a part before it reads any rules.
-/

namespace FieldMask

namespace Json

/-- The violation of a value that should have a type. -/
def typeViolation? (type : SchemaType) (v : Json) : Option Violation :=
  if v.hasType type then none else some (.wrongType v type)

/-- The violation of a value that should be a count. -/
def countViolation? (v : Json) : Option Violation :=
  match v with
  | .num n =>
    if !n.isInteger then some (.wrongType v .integer)
    else if n.whole < 0 then some (.tooSmall v 0)
    else none
  | _ => some (.wrongType v .integer)

/-- Whether a value is the name of a type. -/
def isTypeName (v : Json) : Bool := (v.str?.bind SchemaType.ofName?).isSome

/-- The violation of a value that should be the name of a type or a list of such names. -/
def typesViolation? (v : Json) : Option Violation :=
  let fits := match v with
    | .arr names => !names.isEmpty && names.all isTypeName && unique names
    | v => v.isTypeName
  if fits then none else some (.noAlternative v)

/-- The violation of a value that should be a list of strings, each once. -/
def namesViolation? (v : Json) : Option Violation :=
  match v with
  | .arr names =>
    (names.findSome? (typeViolation? .string)).or
      (if unique names then none else some (.notUnique v))
  | v => some (.wrongType v .array)

/-- The violation of the value of a keyword, apart from the schemas in it. -/
def plainViolation? (name : String) (v : Json) : Option Violation :=
  match name with
  | "$ref" | "title" | "description" | "format" => typeViolation? .string v
  | "items" | "additionalProperties" =>
    if v.hasType .boolean || v.hasType .object then none
    else some (.wrongTypes v [.boolean, .object])
  | "properties" | "definitions" => typeViolation? .object v
  | "allOf" =>
    (typeViolation? .array v).or (if v.items? = some [] then some (.tooShort v 1) else none)
  | "type" => typesViolation? v
  | "enum" => typeViolation? .array v
  | "maxItems" | "minItems" => countViolation? v
  | "uniqueItems" | "readOnly" => typeViolation? .boolean v
  | "required" => namesViolation? v
  | _ => none

/-- The keywords in the order in which they are visited. -/
def keywordOrder : List String :=
  ["$ref", "items", "additionalProperties", "properties", "allOf", "type", "enum", "maxItems",
    "minItems", "uniqueItems", "required", "title", "description", "readOnly", "format",
    "definitions"]

/-- The violation among those of keywords that is met first. -/
def firstViolation? (violations : List (String × Violation)) : Option Violation :=
  keywordOrder.findSome? fun name => violations.lookup name

mutual

/-- The first violation that keeps a value from being a schema. -/
def schemaViolation? : Json → Option Violation
  | .bool _ => none
  | .obj members => firstViolation? (memberViolations members)
  | v => some (.wrongTypes v [.boolean, .object])

/-- The violations in the members of a schema, with their names. -/
def memberViolations : Members → List (String × Violation)
  | [] => []
  | (name, v) :: rest =>
    ((keywordViolation? name v).toList.map (name, ·)) ++ memberViolations rest

/-- The violation in the value of a keyword. -/
def keywordViolation? (name : String) : Json → Option Violation
  | .arr items =>
    (plainViolation? name (.arr items)).or (if name = "allOf" then itemViolation? items else none)
  | .obj members =>
    (plainViolation? name (.obj members)).or
      (if name = "items" ∨ name = "additionalProperties" then
        firstViolation? (memberViolations members)
      else if name = "properties" ∨ name = "definitions" then namedViolation? members
      else none)
  | v => plainViolation? name v

/-- The first violation in named schemas. -/
def namedViolation? : Members → Option Violation
  | [] => none
  | (_, v) :: rest => (schemaViolation? v).or (namedViolation? rest)

/-- The first violation in a list of schemas. -/
def itemViolation? : List Json → Option Violation
  | [] => none
  | v :: rest => (schemaViolation? v).or (itemViolation? rest)

end

end Json

end FieldMask
