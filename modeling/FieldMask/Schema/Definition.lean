import FieldMask.Model.Ancestry

/-!
# Schemas of models

A model is written as an OpenAPI 2 definition: an object schema of its own fields, and with parents
a composition of references to them and that object schema. References name the model below
`#/definitions/`. The siblings of a reference would be ignored, so a reference with keywords of its
own is wrapped in a composition.
-/

namespace FieldMask

/-- What every reference to a model begins with. -/
def referenceStem : String := "#/definitions/"

/-- The reference to a model. -/
def reference (name : String) : Json := .obj [("$ref", .str (referenceStem ++ name))]

namespace Field

/-- The keywords that a field of any shape has: those that are set. -/
def annotations (field : Field) : Members :=
  Json.withoutNulls [
    ("title", .ofString? field.title),
    ("description", .ofString? field.description),
    ("readOnly", if field.readonly then .bool true else .null),
    ("default", field.default.getD .null),
    ("example", field.sample.getD .null),
    ("enum", (field.choices.map .arr).getD .null)]

/-- The keywords of a field that refers to a model. -/
def referring (name : String) (asList : Bool) (annotations : Members) : Members :=
  if asList then [("type", .str SchemaType.array.name), ("items", reference name)] ++ annotations
  else if annotations.isEmpty then [("$ref", .str (referenceStem ++ name))]
  else ("allOf", .arr [reference name]) :: annotations

/-- The schema of a field. The models that it refers to have to be registered. -/
def schema (r : Registry) (field : Field) : Except ModelError Json :=
  match field with
  | { shape := .scalar kind, .. } =>
    .ok <| .obj <| Json.withoutNulls [
      ("type", .str kind.schemaType.name),
      ("format", .ofString? kind.schemaFormat?)] ++ field.annotations
  | { shape := .list items least most unique, .. } => do
    let items ← items.schema r
    return .obj <| Json.withoutNulls [
      ("type", .str SchemaType.array.name),
      ("items", items),
      ("minItems", (least.map .ofWord).getD .null),
      ("maxItems", (most.map .ofWord).getD .null),
      ("uniqueItems", if unique then .bool true else .null)] ++ field.annotations
  | { shape := .nested target asList, .. } => do
    discard (r.lookup target.name)
    return .obj (referring target.name asList field.annotations)
  | { shape := .polymorph mapping, .. } => do
    let ancestor ← r.commonAncestor mapping.values
    return .obj (referring ancestor.name false field.annotations)
termination_by structural field

end Field

/-- Names in ascending order, each once. -/
def ascendingNames (names : List String) : List String :=
  (NameMap.ofPairs (names.map (·, ()))).names

namespace Model

/-- The object schema of a model's own fields. -/
def ownSchema (r : Registry) (model : Model) : Except ModelError Json := do
  let properties ← model.fields.mapM fun (name, field) => return (name, ← field.schema r)
  let required := ascendingNames ((model.fields.filter (fun f => f.2.required)).map (·.1))
  let discriminator := ((model.fields.filter (fun f => f.2.discriminator)).map (·.1)).getLast?
  return .obj <| Json.withoutNulls [
    ("type", .str SchemaType.object.name),
    ("description", .ofString? model.description),
    ("properties", .obj (Keyed.ofPairs properties)),
    ("required", if required.isEmpty then .null else .strings required),
    ("discriminator", .ofString? discriminator),
    ("x-mask", .ofString? (model.mask.map Mask.canonical)),
    ("additionalProperties", if model.strict then .bool false else .null)]

/-- The schema of a model: with parents, a composition of references to them and its own fields. -/
def schema (r : Registry) (model : Model) : Except ModelError Json := do
  let own ← model.ownSchema r
  if model.parents.isEmpty then return own
  let parents ← model.parents.mapM fun parent => do
    discard (r.lookup parent)
    return reference parent
  return .obj [("allOf", .arr (parents ++ [own]))]

end Model

namespace Registry

/-- The schemas of all registered models under their names, once the registry is checked. -/
def definitions (r : Registry) : Except ModelError Members := do
  r.check
  r.toList.mapM fun model => return (model.name, ← model.schema r)

/-- The document of all definitions. -/
def definitionsDocument (r : Registry) : Except ModelError Json := do
  return .obj [("definitions", .obj (← r.definitions))]

/-- The schema of a model together with the definitions that its references point to. -/
def modelDocument (r : Registry) (model : Model) : Except ModelError Json := do
  match ← model.schema r with
  | .obj members => return .obj (Keyed.put "definitions" (.obj (← r.definitions)) members)
  | other => return other

end Registry

end FieldMask
