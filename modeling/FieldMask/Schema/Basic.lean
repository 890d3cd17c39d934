import FieldMask.Schema.Violation

/-!
# Schemas

A JSON Schema is a boolean or a list of keywords, in the order in which they are written. Keywords
of no consequence for a value are left out; one whose value cannot be read is kept as what is wrong
with it. An object that says what its additional properties are checks its properties there, in the
order in which a value has them.

Schemas are read by the validator, a library that is not part of the program. What is assumed of it
follows JSON Schema 2020-12 and, where the standard leaves a choice, what the library does: here, in
the modules for references, rules, other documents, violations and well-formed schemas, and in the
`Comparison` that goes with them.
-/

namespace FieldMask

mutual

/-- A JSON Schema. -/
inductive Schema
  /-- The schema that every value meets, or none. -/
  | always (accepts : Bool)
  | keywords (list : List Keyword)

/-- A keyword of a schema with what it asks for. -/
inductive Keyword
  | type (wanted : SchemaType)
  /-- One of some types. -/
  | types (wanted : List SchemaType)
  | choices (values : List Json)
  | properties (members : List (String × Schema))
  /-- The properties of an object that has no others. -/
  | closed (members : List (String × Schema))
  /-- The properties of an object, and the schema of its other members. -/
  | additional (members : List (String × Schema)) (others : Schema)
  /-- An object without members. -/
  | memberless
  | required (names : List String)
  /-- The schema of every item. -/
  | items (schema : Schema)
  /-- The schemas of the first items. -/
  | itemList (schemas : List Schema)
  | leastItems (count : Nat)
  | mostItems (count : Nat)
  | uniqueItems
  | allOf (schemas : List Schema)
  | reference (text : String)
  /-- A keyword that cannot be read. -/
  | malformed (violation : Violation)

end

namespace Schema

/-- The schemas that a value writes: the value itself, its items and its members. -/
structure Parts where
  whole : Schema
  items : List Schema
  members : List (String × Schema)

/-- A member of a schema. -/
structure Entry where
  name : String
  value : Json
  parts : Parts

/-- What is wrong with a value that does not name a type. -/
def typeNameViolation (value : Json) : Violation :=
  match value with
  | .str _ => .notAmong value (SchemaType.all.map fun t => .str t.name)
  | _ => .wrongType value .string

/-- The keyword that the name of a type writes. -/
def typeNamed (value : Json) : Keyword :=
  match value with
  | .str text =>
    match SchemaType.ofName? text with
    | some wanted => .type wanted
    | none => .malformed .unexpectedType
  | _ => .malformed (.wrongType value .string)

/-- The keyword that the names of types write. They are kept in the order of `SchemaType.all`. -/
def typesNamed (names : List Json) : Keyword :=
  match names.find? (fun v => (v.str?.bind SchemaType.ofName?).isNone) with
  | some v => .malformed (typeNameViolation v)
  | none => .types (SchemaType.all.filter fun t => names.contains (.str t.name))

/-- The keyword `type`. -/
def typeKeyword (value : Json) : Keyword :=
  match value with
  | .str _ => typeNamed value
  | .arr [name] => typeNamed name
  | .arr names => typesNamed names
  | _ => .malformed (.wrongTypes value [.array, .string])

/-- The keyword `required`. -/
def requiredKeyword (value : Json) : Keyword :=
  match value with
  | .arr names =>
    match names.find? (·.str?.isNone) with
    | some v => .malformed (.wrongType v .string)
    | none => .required (names.filterMap Json.str?)
  | _ => .malformed (.wrongType value .array)

/-- The keyword of a bound on the number of items. -/
def boundKeyword (keyword : Nat → Keyword) (value : Json) : Keyword :=
  match value with
  | .num n =>
    match n.nearestCount? with
    | some count => keyword count
    | none => .malformed (.wrongType value .integer)
  | _ => .malformed (.wrongType value .integer)

/-- The keyword `items`. A value that writes no schemas is of no consequence. -/
def itemsKeyword? (value : Json) (parts : Parts) : Option Keyword :=
  match value with
  | .arr _ => some (.itemList parts.items)
  | .bool _ | .obj _ => some (.items parts.whole)
  | _ => none

/-- Whether the members of a schema check its properties with the additional ones. -/
def checksAdditional (entries : List Entry) : Bool :=
  entries.any fun e => e.name = "additionalProperties" &&
    match e.value with
    | .bool false | .obj _ => true
    | _ => false

/-- The keyword `properties`, if the properties are not checked with the additional ones. -/
def propertiesKeyword? (entries : List Entry) (value : Json) (parts : Parts) : Option Keyword :=
  if checksAdditional entries then none
  else match value with
    | .obj _ => some (.properties parts.members)
    | _ => some (.malformed (.wrongType value .object))

/-- The keyword `additionalProperties`. -/
def additionalKeyword? (entries : List Entry) (value : Json) (parts : Parts) : Option Keyword :=
  match value, entries.find? (·.name = "properties") with
  | .bool true, _ => none
  | .bool false, none => some .memberless
  | _, none => some (.additional [] parts.whole)
  | v, some properties =>
    match v, properties.value with
    | .bool false, .obj _ => some (.closed properties.parts.members)
    | _, .obj _ => some (.additional properties.parts.members parts.whole)
    | _, _ => some (.malformed .unexpectedType)

/-- The keyword that a member writes among others, if it is of consequence. -/
def Entry.keyword? (entries : List Entry) (e : Entry) : Option Keyword :=
  match e.name with
  | "$ref" =>
    match e.value with
    | .str text => some (.reference text)
    | v => some (.malformed (.wrongType v .string))
  | "additionalProperties" => additionalKeyword? entries e.value e.parts
  | "allOf" =>
    match e.value with
    | .arr _ => some (.allOf e.parts.items)
    | v => some (.malformed (.wrongType v .array))
  | "enum" =>
    match e.value with
    | .arr values => some (.choices values)
    | v => some (.malformed (.wrongType v .array))
  | "items" => itemsKeyword? e.value e.parts
  | "maxItems" => some (boundKeyword .mostItems e.value)
  | "minItems" => some (boundKeyword .leastItems e.value)
  | "properties" => propertiesKeyword? entries e.value e.parts
  | "required" => some (requiredKeyword e.value)
  | "type" => some (typeKeyword e.value)
  | "uniqueItems" =>
    match e.value with
    | .bool true => some .uniqueItems
    | _ => none
  | _ => none

/-- The schema of a value that is neither a boolean nor an object. -/
def misplaced (value : Json) : Schema :=
  .keywords [.malformed (.wrongTypes value [.boolean, .object])]

mutual

/-- The schemas that a value writes. -/
def partsOf : Json → Parts
  | .bool accepts => ⟨.always accepts, [], []⟩
  | .obj members =>
    let entries := entriesOf members
    { whole := .keywords (entries.filterMap (Entry.keyword? entries))
      items := []
      members := entries.map fun e => (e.name, e.parts.whole) }
  | .arr values => ⟨misplaced (.arr values), schemasOf values, []⟩
  | value => ⟨misplaced value, [], []⟩

/-- The members of a schema with the schemas that they write. -/
def entriesOf : Members → List Entry
  | [] => []
  | (name, value) :: rest => ⟨name, value, partsOf value⟩ :: entriesOf rest

/-- The schemas that items write. -/
def schemasOf : List Json → List Schema
  | [] => []
  | value :: rest => (partsOf value).whole :: schemasOf rest

end

/-- The schema that a value writes. -/
def ofJson (value : Json) : Schema := (partsOf value).whole

end Schema

end FieldMask
