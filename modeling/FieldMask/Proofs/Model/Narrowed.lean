import FieldMask.Proofs.Model.Bare
import FieldMask.Proofs.Model.Masked

/-!
# Narrowed fields

A selection narrows a field of a registered model in one of four ways, according to its shape. The
default stays as it is, so a field that is narrowed and bare has none.
-/

namespace FieldMask

/--
What a selection makes of a plain field: it stays with an opaque scalar or a polymorphic field until
there is a value, goes on to the items of a list, and masks the model that a nested field refers to.
-/
inductive Field.Narrows (r : Registry) (selection : List Selector) (place : Pointer) :
    Field → Field → Prop
  | scalar {field : Field} {kind : Kind} (h : field.shape = .scalar kind)
      (ho : kind.isOpaque = true) :
      Field.Narrows r selection place field { field with mask := some ⟨selection⟩ }
  | list {field items items' : Field} {least most : Option UInt64} {unique : Bool}
      (h : field.shape = .list items least most unique)
      (hi : Field.Narrows r selection place items items') :
      Field.Narrows r selection place field { field with shape := .list items' least most unique }
  | named {field : Field} {name : String} {asList : Bool} {m m' : Model} {flat : FlatModel}
      (h : field.shape = .nested (.named name) asList) (hm : r.find? name = some m)
      (hflat : r.resolve m = .ok flat) (hmasked : r.maskFlat true selection place flat = .ok m') :
      Field.Narrows r selection place field { field with shape := .nested (.masked m') asList }
  | polymorph {field : Field} {mapping : NameMap String} (h : field.shape = .polymorph mapping) :
      Field.Narrows r selection place field { field with mask := some ⟨selection⟩ }

namespace Field

variable {r : Registry} {selection : List Selector} {place : Pointer} {field field' : Field}

theorem narrows_of_narrow (hp : field.Plain)
    (h : field.narrow selection place (r.maskTarget true selection place) = .ok field') :
    field.Narrows r selection place field' := by
  induction hp generalizing field' with
  | scalar hs =>
    rw [narrow_scalar hs] at h
    split at h
    · rename_i ho
      obtain rfl := Except.ok.inj h
      exact .scalar hs ho
    · cases h
  | list hs _ ih =>
    rw [narrow_list hs] at h
    obtain ⟨items', hitems, h⟩ := bind_eq_ok.1 h
    obtain rfl := pure_eq_ok.1 h
    exact .list hs (ih hitems)
  | named hs =>
    rw [narrow_nested hs] at h
    obtain ⟨m', hm', h⟩ := bind_eq_ok.1 h
    obtain rfl := pure_eq_ok.1 h
    obtain ⟨m, flat, hm, hflat, hmasked⟩ := Registry.maskTarget_named_eq_ok.1 hm'
    exact .named hs hm hflat hmasked
  | polymorph hs =>
    rw [narrow_polymorph hs] at h
    obtain rfl := Except.ok.inj h
    exact .polymorph hs

theorem Narrows.default_eq (h : field.Narrows r selection place field') :
    field'.default = field.default := by
  cases h <;> rfl

/-- The scalars that a selection goes on below are opaque. -/
theorem Narrows.isOpaque (h : field.Narrows r selection place field') {kind : Kind}
    (hs : field'.shape = .scalar kind) : kind.isOpaque = true := by
  cases h with
  | scalar h ho =>
    obtain rfl := Shape.scalar.inj (h.symm.trans hs)
    exact ho
  | list => cases hs
  | named => cases hs
  | polymorph h => cases h.symm.trans hs

/-- A bare field that is narrowed has no default. -/
theorem Narrows.default_eq_none (h : field.Narrows r selection place field')
    (hb : field.isBare = true) : field.default = none := by
  cases h with
  | scalar hs ho => exact (isBare_scalar hs hb).2 ho
  | list hs _ => exact (isBare_list hs hb).1
  | named hs _ _ _ => exact isBare_nested hs hb
  | polymorph hs => exact (isBare_polymorph hs hb).2

end Field

end FieldMask
