import FieldMask.Model.Registry

/-!
# Flat models

A model is flattened with its ancestors: the fields of its parents come first, depth first and in
order, then its own; a later field of the same name replaces an earlier one where it stands. At most
one of the fields may be a discriminator, and it takes the name of the model as its default.
-/

namespace FieldMask

/-- A model flattened with all of its ancestors. -/
structure FlatModel where
  name : String
  fields : Fields
  mask : Option Mask
  description : Option String
  strict : Bool
  /-- The name of the discriminator, if there is one. -/
  discriminator : Option String

namespace FlatModel

/-- The field of a name. -/
def find? (flat : FlatModel) (name : String) : Option Field := flat.fields.lookup name

/-- The model without parents that has the flattened fields. -/
def toModel (flat : FlatModel) : Model :=
  { name := flat.name, fields := flat.fields, mask := flat.mask, description := flat.description,
    strict := flat.strict }

end FlatModel

namespace Registry

/-- The registered names that are not on a path. -/
def namesOff (r : Registry) (path : List String) : List String :=
  r.names.filter (fun n => !path.contains n)

theorem namesOff_cons (r : Registry) (name : String) (path : List String) :
    r.namesOff (name :: path) = (r.namesOff path).filter (· != name) := by
  rw [namesOff, namesOff, List.filter_filter]
  refine List.filter_congr fun n _ => ?_
  by_cases h : n = name <;> simp [h]

theorem length_namesOff_cons_lt {r : Registry} {path : List String} {name : String}
    (hr : name ∈ r.names) (hp : name ∉ path) :
    (r.namesOff (name :: path)).length < (r.namesOff path).length := by
  rw [namesOff_cons]
  refine List.length_filter_lt_length_iff_exists.2 ⟨name, ?_, by simp⟩
  simp [namesOff, hr, hp]

/--
Add the fields of a registered model and its ancestors to those collected so far. The path holds the
names of the models below it.
-/
def collect (r : Registry) (path : List String) (name : String) (fields : Fields) :
    Except ModelError Fields :=
  match _ : r.find? name with
  | none => .error (.unknownModel name)
  | some model =>
    if _ : name ∈ path then .error (.inheritanceCycle name)
    else do
      let inherited ← model.parents.foldlM
        (fun acc parent => r.collect (name :: path) parent acc) fields
      return Keyed.putAll inherited model.fields
termination_by (r.namesOff path).length
decreasing_by exact length_namesOff_cons_lt (mem_names_of_find? ‹_›) ‹_›

/-- The fields of a model and its ancestors. -/
def collectAll (r : Registry) (model : Model) : Except ModelError Fields := do
  let inherited ← model.parents.foldlM (fun acc parent => r.collect [model.name] parent acc) []
  return Keyed.putAll inherited model.fields

/-- The names of the discriminators among fields. -/
def discriminators (fields : Fields) : List String :=
  (fields.filter (fun f => f.2.discriminator)).map (·.1)

/-- The fields with a default for the discriminators. -/
def stamp (name : String) (fields : Fields) : Fields :=
  fields.map fun (n, f) =>
    (n, if f.discriminator then { f with default := some (.str name) } else f)

/-- Flatten a model with its ancestors. -/
def resolve (r : Registry) (model : Model) : Except ModelError FlatModel := do
  let fields ← r.collectAll model
  let found := discriminators fields
  if 1 < found.length then throw (.duplicateDiscriminator model.name found)
  return {
    name := model.name, fields := stamp model.name fields, mask := model.mask,
    description := model.description, strict := model.strict, discriminator := found.head? }

/-- Flatten a registered model. -/
def resolveName (r : Registry) (name : String) : Except ModelError FlatModel := do
  r.resolve (← r.lookup name)

/-- Flatten the target of a nested field. -/
def resolveTarget (r : Registry) : Target → Except ModelError FlatModel
  | .named name => r.resolveName name
  | .masked model => r.resolve model

/-- The fields of flat models, one after the other, without the defaults of discriminators. -/
def copyFields (sources : List FlatModel) : Fields :=
  Keyed.ofPairs <| sources.flatMap fun source =>
    source.fields.map fun (n, f) => (n, if f.discriminator then { f with default := none } else f)

/--
Register a model without parents that has the flattened fields of named models, and further fields.
-/
def clone (r : Registry) (name : String) (sources : List String) (fields : Fields) :
    Except ModelError Registry := do
  let flats ← sources.mapM r.resolveName
  r.define { name, fields := Keyed.putAll (copyFields flats) fields }

end Registry

end FieldMask
