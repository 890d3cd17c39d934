import FieldMask.Declaration.Field
import FieldMask.Model.Ancestry

/-!
# Declarations of models

A document declares models in the array under `models`. They are registered in that order, so
parents and sources have to be declared before the models that use them, while nested fields may
refer to any model of the document. A model either inherits from others or is cloned from them.
-/

namespace FieldMask

/-- The members of a model's declaration. -/
structure ModelDeclaration where
  name : String := ""
  description : Option String := none
  mask : Option String := none
  strict : Bool := false
  inherits : List String := []
  clones : List String := []
  fields : Members := []

/-- The record that declares a model. -/
def ModelDeclaration.record : Record ModelDeclaration where
  name := "ModelDecl"
  members := [
    Record.neededMember "name" Json.readText (fun d v => { d with name := v }),
    Record.member "description" (Json.readOptional Json.readText)
      (fun d v => { d with description := v }),
    Record.member "mask" (Json.readOptional Json.readText) (fun d v => { d with mask := v }),
    Record.member "strict" Json.readBoolean (fun d v => { d with strict := v }),
    Record.member "inherits" Json.readTexts (fun d v => { d with inherits := v }),
    Record.member "clone" Json.readTexts (fun d v => { d with clones := v }),
    Record.member "fields" Json.readMap (fun d v => { d with fields := v })]

/-- A model as it is declared, before it is registered. -/
structure Declaration where
  name : String
  description : Option String
  mask : Option Mask
  strict : Bool
  /-- The names of the models that it inherits from. -/
  parents : List String
  /-- The names of the models that it is cloned from. -/
  sources : List String
  fields : Fields

/-- Why no registry can be made of a document. -/
inductive RegistryError
  | declaration (error : DeclarationError)
  | model (error : ModelError)
  deriving DecidableEq

namespace Declaration

/-- The declaration at a path. -/
def read (path : String) (value : Json) : Except DeclarationError Declaration := do
  let d ← (ModelDeclaration.record.read {} value).mapError fun e => .invalid path (.record e)
  if !d.inherits.isEmpty && !d.clones.isEmpty then throw (.invalid path .inheritsAndClones)
  let mask ← readMask? (path ++ "/mask") d.mask
  let fields ← d.fields.mapM fun (name, value) =>
    return (name, ← readField (path ++ "/fields/" ++ name) value)
  return {
    name := d.name, description := d.description, mask, strict := d.strict,
    parents := d.inherits, sources := d.clones, fields }

/-- The declared model. The sources that it is cloned from have to be registered. -/
def toModel (r : Registry) (d : Declaration) : Except ModelError Model := do
  let flats ← d.sources.mapM r.resolveName
  return {
    name := d.name
    parents := if d.sources.isEmpty then d.parents else []
    fields := Keyed.putAll (Registry.copyFields flats) d.fields
    mask := d.mask
    description := d.description
    strict := d.strict }

/-- Register the declared model. -/
def register (r : Registry) (d : Declaration) : Except ModelError Registry := do
  r.define (← d.toModel r)

/-- The path of a declaration. -/
def pathAt (index : Nat) : String := "/models/" ++ Number.intText index

/-- The declarations of a document with their paths. -/
def valuesOf (document : Json) : Except DeclarationError (List (String × Json)) :=
  match (document.get? "models").bind Json.items? with
  | some values => .ok (values.zipIdx.map fun (value, i) => (pathAt i, value))
  | none => .error (.invalid "/models" .noModels)

end Declaration

namespace Registry

/-- The registry of the models that a document declares. -/
def ofDocument (document : Json) : Except RegistryError Registry := do
  let values ← (Declaration.valuesOf document).mapError .declaration
  let r ← values.foldlM (fun r (path, value) => do
    let d ← (Declaration.read path value).mapError .declaration
    (d.register r).mapError .model) Registry.empty
  r.check.mapError .model
  return r

end Registry

end FieldMask
