import FieldMask.Model.Ancestry
import FieldMask.Proofs.Json.Meaning

/-!
# Conformance

When a value conforms to a model, read off the declarations of its fields. An object conforms to a
model if it conforms to all parents, has the required own fields, has no members but own fields if
the model is strict, and its members are admitted by the own fields of their names. `admits_obj_iff`
and the lemmas beside it open a derivation.
-/

namespace FieldMask

/-- Whether a value is of a kind. A number without a fraction is an integer. -/
def Kind.admits : Kind → Json → Bool
  | .string, .str _ | .dateTime, .str _ | .date, .str _ => true
  | .integer, .num n => n.isInteger
  | .number, .num _ => true
  | .boolean, .bool _ => true
  | .raw, .obj _ | .object, .obj _ => true
  | _, _ => false

mutual

/-- The value conforms to the model. -/
inductive Model.Admits (q : Equality) (r : Registry) : Model → Json → Prop
  | object {model : Model} {members : Members}
      (parents : ∀ name ∈ model.parents, ∀ parent, r.find? name = some parent →
        Model.Admits q r parent (.obj members))
      (required : ∀ e ∈ model.fields, e.2.required = true → e.1 ∈ Keyed.keys members)
      (strict : model.strict = true → Keyed.keys members ⊆ Keyed.keys model.fields)
      (fields : ∀ e ∈ model.fields, ∀ v, members.lookup e.1 = some v → Field.Admits q r e.2 v) :
      Model.Admits q r model (.obj members)

/-- The value is of the shape of the field, and one of the choices if there are any. -/
inductive Field.Admits (q : Equality) (r : Registry) : Field → Json → Prop
  | value {field : Field} {v : Json} (shape : Shape.Admits q r field.shape v)
      (choices : ∀ values, field.choices = some values → ∃ w ∈ values, q.same v w) :
      Field.Admits q r field v

/-- The value is of the shape. -/
inductive Shape.Admits (q : Equality) (r : Registry) : Shape → Json → Prop
  | scalar {kind : Kind} {v : Json} (h : kind.admits v = true) : Shape.Admits q r (.scalar kind) v
  | list {items : Field} {least most : Option UInt64} {unique : Bool} {values : List Json}
      (hleast : ∀ n, least = some n → n.toNat ≤ values.length)
      (hmost : ∀ n, most = some n → values.length ≤ n.toNat)
      (hunique : unique = true → q.unique values)
      (hitems : ∀ v ∈ values, Field.Admits q r items v) :
      Shape.Admits q r (.list items least most unique) (.arr values)
  | nested {name : String} {model : Model} {v : Json} (hm : r.find? name = some model)
      (h : Model.Admits q r model v) : Shape.Admits q r (.nested (.named name) false) v
  | nestedList {name : String} {model : Model} {values : List Json}
      (hm : r.find? name = some model) (h : ∀ v ∈ values, Model.Admits q r model v) :
      Shape.Admits q r (.nested (.named name) true) (.arr values)
  | polymorph {mapping : NameMap String} {ancestor : Model} {v : Json}
      (ha : r.commonAncestor mapping.values = .ok ancestor) (h : Model.Admits q r ancestor v) :
      Shape.Admits q r (.polymorph mapping) v

end

variable {q : Equality} {r : Registry} {model : Model} {field : Field} {members : Members}
  {v : Json}

theorem Kind.admits_eq_hasType (kind : Kind) (v : Json) :
    kind.admits v = v.hasType kind.schemaType := by
  cases kind <;> cases v <;> rfl

namespace Model

theorem admits_obj_iff :
    model.Admits q r (.obj members) ↔
      (∀ name ∈ model.parents, ∀ parent, r.find? name = some parent →
        parent.Admits q r (.obj members)) ∧
      (∀ e ∈ model.fields, e.2.required = true → e.1 ∈ Keyed.keys members) ∧
      (model.strict = true → Keyed.keys members ⊆ Keyed.keys model.fields) ∧
      ∀ e ∈ model.fields, ∀ w, members.lookup e.1 = some w → e.2.Admits q r w := by
  constructor
  · rintro ⟨hp, hr, hs, hf⟩
    exact ⟨hp, hr, hs, hf⟩
  · rintro ⟨hp, hr, hs, hf⟩
    exact .object hp hr hs hf

/-- Nothing but an object conforms to a model. -/
theorem Admits.exists_obj (h : model.Admits q r v) : ∃ members, v = .obj members := by
  cases h
  exact ⟨_, rfl⟩

end Model

theorem Field.admits_iff :
    field.Admits q r v ↔
      field.shape.Admits q r v ∧
        ∀ values, field.choices = some values → ∃ w ∈ values, q.same v w := by
  constructor
  · rintro ⟨hs, hc⟩
    exact ⟨hs, hc⟩
  · rintro ⟨hs, hc⟩
    exact .value hs hc

namespace Shape

theorem admits_scalar_iff {kind : Kind} :
    (Shape.scalar kind).Admits q r v ↔ v.hasType kind.schemaType = true := by
  rw [← Kind.admits_eq_hasType]
  constructor
  · rintro ⟨h⟩
    assumption
  · exact .scalar

theorem admits_list_iff {items : Field} {least most : Option UInt64} {unique : Bool} :
    (Shape.list items least most unique).Admits q r v ↔
      ∃ values, v = .arr values ∧ (∀ n, least = some n → n.toNat ≤ values.length) ∧
        (∀ n, most = some n → values.length ≤ n.toNat) ∧
        (unique = true → q.unique values) ∧ ∀ w ∈ values, items.Admits q r w := by
  constructor
  · intro h
    cases h with
    | list hl hm hu hi => exact ⟨_, rfl, hl, hm, hu, hi⟩
  · rintro ⟨values, rfl, hl, hm, hu, hi⟩
    exact .list hl hm hu hi

theorem admits_named_iff {name : String} (hm : r.find? name = some model) :
    (Shape.nested (.named name) false).Admits q r v ↔ model.Admits q r v := by
  constructor
  · intro h
    cases h with
    | nested hm' h =>
      obtain rfl := Option.some.inj (hm.symm.trans hm')
      exact h
  · exact .nested hm

theorem admits_namedList_iff {name : String} (hm : r.find? name = some model) :
    (Shape.nested (.named name) true).Admits q r v ↔
      ∃ values, v = .arr values ∧ ∀ w ∈ values, model.Admits q r w := by
  constructor
  · intro h
    cases h with
    | nestedList hm' h =>
      obtain rfl := Option.some.inj (hm.symm.trans hm')
      exact ⟨_, rfl, h⟩
  · rintro ⟨values, rfl, h⟩
    exact .nestedList hm h

theorem admits_polymorph_iff {mapping : NameMap String}
    (ha : r.commonAncestor mapping.values = .ok model) :
    (Shape.polymorph mapping).Admits q r v ↔ model.Admits q r v := by
  constructor
  · intro h
    cases h with
    | polymorph ha' h =>
      obtain rfl := Except.ok.inj (ha.symm.trans ha')
      exact h
  · exact .polymorph ha

end Shape

end FieldMask
