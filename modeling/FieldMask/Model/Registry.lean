import FieldMask.Model.Error
import FieldMask.Model.Field

/-!
# The registry of models

A registry holds models under their names and lists them by name. A model can be registered once its
parents are, and never twice, so that no chain of parents comes back to where it began.
-/

namespace FieldMask

/-- Models under their names. -/
structure Registry where
  models : NameMap Model
  /-- Every model is registered under its own name. -/
  named : ∀ e ∈ models.entries, e.1 = e.2.name

namespace Registry

/-- The registry without models. -/
def empty : Registry := ⟨.empty, by simp [NameMap.empty]⟩

/-- Put a model under its name, in place of an earlier one. -/
def put (r : Registry) (model : Model) : Registry where
  models := r.models.insert model.name model
  named := by
    intro e he
    rcases NameMap.mem_insertInto he with rfl | he
    · rfl
    · exact r.named e he

/-- The registered model of a name. -/
def find? (r : Registry) (name : String) : Option Model := r.models.find? name

/-- The registered model of a name, which has to be there. -/
def lookup (r : Registry) (name : String) : Except ModelError Model :=
  match r.find? name with
  | some model => .ok model
  | none => .error (.unknownModel name)

/-- Whether a name is registered. -/
def contains (r : Registry) (name : String) : Bool := r.models.contains name

/-- The registered names, ascending. -/
def names (r : Registry) : List String := r.models.names

/-- The registered models, by name. -/
def toList (r : Registry) : List Model := r.models.values

/-- How many models are registered. -/
def size (r : Registry) : Nat := r.models.size

@[simp] theorem find?_put (r : Registry) (model : Model) (name : String) :
    (r.put model).find? name = if name = model.name then some model else r.find? name :=
  NameMap.find?_insert ..

theorem mem_names_of_find? {r : Registry} {name : String} {model : Model}
    (h : r.find? name = some model) : name ∈ r.names := by
  have hl : r.models.entries.lookup name = some model := h
  clear h
  simp only [names, NameMap.names, List.mem_map]
  generalize r.models.entries = l at hl
  induction l with
  | nil => simp at hl
  | cons e rest ih =>
    obtain ⟨k, v⟩ := e
    rw [Keyed.lookup_cons] at hl
    split at hl
    · rename_i h
      exact ⟨(k, v), List.mem_cons_self, h.symm⟩
    · obtain ⟨e, he, hn⟩ := ih hl
      exact ⟨e, List.mem_cons_of_mem _ he, hn⟩

/-- Register a model: its name must be free, its parents registered, and none of them itself. -/
def define (r : Registry) (model : Model) : Except ModelError Registry := do
  if r.contains model.name then throw (.duplicateModel model.name)
  model.parents.forM fun parent =>
    if parent = model.name then throw (.inheritanceCycle model.name)
    else discard (r.lookup parent)
  return r.put model

/-- Register a model that inherits from named parents. -/
def inherit (r : Registry) (name : String) (parents : List String) (fields : Fields) :
    Except ModelError Registry :=
  r.define (.inheriting name parents fields)

end Registry

end FieldMask
