import FieldMask.Model.Flat

/-!
# Ancestors

The ancestors of a model are the model itself and everything that is reached from it through
parents. Models have a common ancestor if exactly one model is an ancestor of all of them.
`Registry.check` makes sure that every model flattens, that nested fields refer to registered models
and that the models of a polymorphic field have a common ancestor.
-/

namespace FieldMask

namespace Registry

/-- The names seen together with those that are reached from the pending ones through parents. -/
def reach (r : Registry) (seen : List String) (pending : List String) :
    Except ModelError (List String) :=
  match pending with
  | [] => .ok seen
  | name :: rest =>
    if _ : name ∈ seen then r.reach seen rest
    else match _ : r.find? name with
      | none => .error (.unknownModel name)
      | some model => r.reach (name :: seen) (model.parents.reverse ++ rest)
termination_by ((r.namesOff seen).length, pending.length)
decreasing_by
  · exact Prod.Lex.right _ (by simp)
  · exact Prod.Lex.left _ _ (length_namesOff_cons_lt (mem_names_of_find? ‹_›) ‹_›)

/-- The name of a model and those of its ancestors, ascending. -/
def ancestors (r : Registry) (name : String) : Except ModelError (List String) := do
  let seen ← r.reach [] [name]
  return r.names.filter (fun n => seen.contains n)

/-- The one model that is an ancestor of all the named ones. -/
def commonAncestor (r : Registry) (names : List String) : Except ModelError Model := do
  let sets ← names.mapM r.ancestors
  let common := match sets with
    | [] => []
    | first :: rest => first.filter (fun n => rest.all (·.contains n))
  match common with
  | [name] => r.lookup name
  | _ => throw (.ambiguousAncestor names)

/-- Check that the models of polymorphic fields have a common ancestor, through list items too. -/
def checkPolymorph (r : Registry) (field : Field) : Except ModelError Unit :=
  match field.innermost.shape with
  | .polymorph mapping => discard (r.commonAncestor mapping.values)
  | _ => .ok ()

/-- Check what a field refers to. -/
def checkField (r : Registry) (field : Field) : Except ModelError Unit := do
  field.references.forM fun name => discard (r.lookup name)
  r.checkPolymorph field

/-- Check a model: it flattens, and so does everything that its own fields refer to. -/
def checkModel (r : Registry) (model : Model) : Except ModelError Unit := do
  discard (r.resolve model)
  model.fields.forM fun (_, field) => r.checkField field

/-- Check every registered model. -/
def check (r : Registry) : Except ModelError Unit := r.toList.forM r.checkModel

end Registry

end FieldMask
