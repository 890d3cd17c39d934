import FieldMask.Mask.Error
import FieldMask.Model.Flat

/-!
# Masked models

A mask is applied to the declared fields of a model as it is to a value: the model is flattened, the
selected fields are picked in the order of the selectors, and the wildcard adds the others. Below a
nested field the mask goes on with the model that it refers to, of which the field then holds a
masked copy. What is below an opaque or polymorphic field is known only when there is a value, so
the field keeps its part of the mask for then. A selection below any other scalar is an
inconsistency.
-/

namespace FieldMask

namespace Field

/--
Narrow a field to what is selected below it, through lists. A nested field gets the model that
`below` makes of the one that it refers to.
-/
def narrow (selection : List Selector) (place : Pointer) (below : Target → Except MaskError Model)
    (field : Field) : Except MaskError Field :=
  match field with
  | { shape := .list items least most unique, .. } => do
    let items ← items.narrow selection place below
    return { field with shape := .list items least most unique }
  | { shape := .scalar kind, .. } =>
    if kind.isOpaque then .ok { field with mask := some ⟨selection⟩ }
    else .error (.inconsistent ⟨place⟩)
  | { shape := .nested target asList, .. } => do
    return { field with shape := .nested (.masked (← below target)) asList }
  | { shape := .polymorph _, .. } => .ok { field with mask := some ⟨selection⟩ }
termination_by structural field

end Field

namespace Registry

/-- An error of models as one of masks. -/
def liftModel {α : Type} (x : Except ModelError α) : Except MaskError α := x.mapError .model

/-- The fields that the wildcard adds, if it is among the selectors: those that no sibling names. -/
def addRest (selection : List Selector) (flat : FlatModel) (picked : Fields) : Fields :=
  if selection.any Selector.isWildcard then
    let named := (selection.filter (fun s => !s.isWildcard)).map Selector.name
    Keyed.putAll picked (flat.fields.filter (fun f => !named.contains f.1))
  else picked

/-- The copy of a flat model that has the picked fields. -/
def maskedCopy (flat : FlatModel) (fields : Fields) : Model :=
  { name := flat.name, fields, description := flat.description, strict := flat.strict }

mutual

/-- Pick one selector's field and put it to those picked before. -/
def pickField (r : Registry) (skipMissing : Bool) (place : Pointer) (flat : FlatModel)
    (picked : Fields) : Selector → Except MaskError Fields
  | .wildcard => .ok picked
  | .leaf name =>
    match flat.find? name with
    | none => .ok (if skipMissing then picked else Keyed.put name .raw picked)
    | some field => .ok (Keyed.put name field picked)
  | .nested name children =>
    match flat.find? name with
    | none => .ok (if skipMissing then picked else Keyed.put name .raw picked)
    | some field => do
      let place := place.child name
      let narrowed ← field.narrow children place fun target => do
        let flat ← liftModel (r.resolveTarget target)
        let picked ← r.pickFields skipMissing place flat [] children
        return maskedCopy flat (addRest children flat picked)
      return Keyed.put name narrowed picked

/-- Pick the siblings' fields, one after the other. -/
def pickFields (r : Registry) (skipMissing : Bool) (place : Pointer) (flat : FlatModel)
    (picked : Fields) : List Selector → Except MaskError Fields
  | [] => .ok picked
  | s :: rest => do
    r.pickFields skipMissing place flat (← r.pickField skipMissing place flat picked s) rest

end

/-- The copy of a flat model that has what is selected of its fields. -/
def maskFlat (r : Registry) (skipMissing : Bool) (selection : List Selector) (place : Pointer)
    (flat : FlatModel) : Except MaskError Model := do
  let picked ← r.pickFields skipMissing place flat [] selection
  return maskedCopy flat (addRest selection flat picked)

/-- The copy of a model, flattened, that has what a mask selects of its fields. -/
def maskModel (r : Registry) (mask : Mask) (skipMissing : Bool) (model : Model) :
    Except MaskError Model := do
  r.maskFlat skipMissing mask.selectors .root (← liftModel (r.resolve model))

/-- A field narrowed to what a mask selects below it. -/
def maskField (r : Registry) (mask : Mask) (skipMissing : Bool) (field : Field) :
    Except MaskError Field :=
  field.narrow mask.selectors .root fun target => do
    r.maskFlat skipMissing mask.selectors .root (← liftModel (r.resolveTarget target))

end Registry

end FieldMask
