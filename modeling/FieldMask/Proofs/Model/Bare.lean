import FieldMask.Proofs.Declaration.Sound

/-!
# Bare models

A field is bare if it declares neither a mask nor a default other than of a scalar, and a list only
has bare items. If no model of a loaded registry declares a mask and all fields are bare, then so it
is with what the models flatten to (`bare_of_resolve`); only a discriminator has another default,
the name of its model.
-/

namespace FieldMask

/--
Whether neither the field nor, in a list, the items declare a mask, or a default where they are not
of a scalar kind.
-/
def Field.isBare : Field → Bool
  | { shape := .scalar kind, default, mask, .. } =>
    mask.isNone && (!kind.isOpaque || default.isNone)
  | { shape := .list items _ _ _, default, mask, .. } =>
    mask.isNone && default.isNone && items.isBare
  | { shape := .nested _ _, default, mask, .. } => mask.isNone && default.isNone
  | { shape := .polymorph _, default, mask, .. } => mask.isNone && default.isNone
termination_by structural field => field

/-- Whether no model declares a mask, and all fields are bare. -/
def Registry.isBare (r : Registry) : Bool :=
  r.toList.all fun model => model.mask.isNone && model.fields.all fun e => e.2.isBare

namespace Field

variable {field : Field}

theorem isBare_scalar {kind : Kind} (h : field.shape = .scalar kind) (hb : field.isBare = true) :
    field.mask = none ∧ (kind.isOpaque = true → field.default = none) := by
  cases field
  cases h
  simp only [isBare, Bool.and_eq_true, Bool.or_eq_true, Bool.not_eq_true',
    Option.isNone_iff_eq_none] at hb
  refine ⟨hb.1, fun ho => ?_⟩
  rcases hb.2 with h | h
  · rw [ho] at h
    cases h
  · exact h

theorem isBare_list {items : Field} {least most : Option UInt64} {unique : Bool}
    (h : field.shape = .list items least most unique) (hb : field.isBare = true) :
    field.default = none ∧ items.isBare = true := by
  cases field
  cases h
  simp only [isBare, Bool.and_eq_true, Option.isNone_iff_eq_none] at hb
  exact ⟨hb.1.2, hb.2⟩

theorem isBare_nested {target : Target} {asList : Bool} (h : field.shape = .nested target asList)
    (hb : field.isBare = true) : field.default = none := by
  cases field
  cases h
  simp only [isBare, Bool.and_eq_true, Option.isNone_iff_eq_none] at hb
  exact hb.2

theorem isBare_polymorph {mapping : NameMap String} (h : field.shape = .polymorph mapping)
    (hb : field.isBare = true) : field.mask = none ∧ field.default = none := by
  cases field
  cases h
  simpa only [isBare, Bool.and_eq_true, Option.isNone_iff_eq_none] using hb

end Field

/-- The flat model has no mask, and its fields other than discriminators are bare and plain. -/
structure FlatModel.Bare (flat : FlatModel) : Prop where
  mask : flat.mask = none
  fields : ∀ e ∈ flat.fields, e.2.discriminator = false → e.2.isBare = true ∧ e.2.Plain

namespace Registry

variable {r : Registry}

theorem isBare_of_find? (hb : r.isBare = true) {name : String} {model : Model}
    (hm : r.find? name = some model) :
    model.mask = none ∧ ∀ e ∈ model.fields, e.2.isBare = true := by
  have h := List.all_eq_true.1 hb model (mem_toList_of_find? hm)
  simpa only [Bool.and_eq_true, Option.isNone_iff_eq_none, List.all_eq_true] using h

/-- The models of a bare registry of plain fields flatten to bare ones. -/
theorem bare_of_resolve (hp : r.Plain) (hb : r.isBare = true) {name : String} {model : Model}
    (hm : r.find? name = some model) {flat : FlatModel} (h : r.resolve model = .ok flat) :
    flat.Bare := by
  refine ⟨?_, fun e he hd => ?_⟩
  · obtain ⟨fields, -, -, rfl⟩ := resolve_eq_ok.1 h
    exact (isBare_of_find? hb hm).1
  · obtain ⟨name', owner, hname', hmem⟩ := registered_of_resolve hm h he hd
    exact ⟨(isBare_of_find? hb hname').2 _ hmem, hp name' owner hname' _ hmem⟩

end Registry

end FieldMask
