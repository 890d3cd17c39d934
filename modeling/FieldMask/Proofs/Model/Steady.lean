import FieldMask.Proofs.Model.Narrowed

/-!
# Steady models

A field is steady if it is read under its own name, is not polymorphic, and has a default only where
it is of a kind that is not opaque; the items of a list are steady too. Masks do not matter: what a
mask makes of a steady field is steady, also through the masked copies of models that it refers to
(`steady_of_maskFlat`).
-/

namespace FieldMask

/--
Whether the field, and in a list the items, declare neither a source nor a default, but for a
default of a kind that is not opaque, and are not polymorphic.
-/
def Field.isSteady : Field → Bool
  | { shape := .scalar kind, source, default, .. } =>
    source.isNone && (!kind.isOpaque || default.isNone)
  | { shape := .list items _ _ _, source, default, .. } =>
    source.isNone && default.isNone && items.isSteady
  | { shape := .nested _ _, source, default, .. } => source.isNone && default.isNone
  | { shape := .polymorph _, .. } => false
termination_by structural field => field

/-- Whether all fields of all models are steady. -/
def Registry.isSteady (r : Registry) : Bool :=
  r.toList.all fun model => model.fields.all fun e => e.2.isSteady

/--
The field is steady, and so are the fields of the masked copy of a model that it refers to, which
has no mask of its own.
-/
inductive Field.Steady (r : Registry) : Field → Prop
  | scalar {field : Field} {kind : Kind} (h : field.shape = .scalar kind)
      (hs : field.source = none) (hd : kind.isOpaque = true → field.default = none) :
      Field.Steady r field
  | list {field items : Field} {least most : Option UInt64} {unique : Bool}
      (h : field.shape = .list items least most unique) (hs : field.source = none)
      (hd : field.default = none) (hi : Field.Steady r items) : Field.Steady r field
  | named {field : Field} {name : String} {asList : Bool}
      (h : field.shape = .nested (.named name) asList) (hs : field.source = none)
      (hd : field.default = none) : Field.Steady r field
  | masked {field : Field} {m : Model} {asList : Bool} {flat : FlatModel}
      (h : field.shape = .nested (.masked m) asList) (hs : field.source = none)
      (hd : field.default = none) (hflat : r.resolve m = .ok flat) (hm : flat.mask = none)
      (hf : ∀ e ∈ flat.fields, e.2.discriminator = false → Field.Steady r e.2) :
      Field.Steady r field

namespace Field

variable {r : Registry} {field field' : Field} {selection : List Selector} {place : Pointer}

theorem Steady.source_eq (h : field.Steady r) : field.source = none := by
  cases h <;> assumption

/-- A steady field has a default only if it is of a kind that is not opaque. -/
theorem Steady.default_eq (h : field.Steady r)
    (hs : ∀ kind, field.shape = .scalar kind → kind.isOpaque = true) : field.default = none := by
  cases h with
  | scalar h _ hd => exact hd (hs _ h)
  | _ => assumption

/-- A steady field with a default is of a kind that is not opaque. -/
theorem Steady.scalar_of_default {value : Json} (h : field.Steady r)
    (hd : field.default = some value) :
    ∃ kind, field.shape = .scalar kind ∧ kind.isOpaque = false := by
  by_contra hn
  have hnone : field.default = none := by
    refine h.default_eq fun kind hs => ?_
    by_contra ho
    exact hn ⟨kind, hs, Bool.eq_false_iff.2 ho⟩
  cases hnone.symm.trans hd

theorem Steady.items {items : Field} {least most : Option UInt64} {unique : Bool}
    (h : field.Steady r) (hs : field.shape = .list items least most unique) : items.Steady r := by
  cases h with
  | list h _ _ hi =>
    cases h.symm.trans hs
    exact hi
  | scalar h | named h | masked h => cases h.symm.trans hs

theorem Steady.shape_ne_polymorph {mapping : NameMap String} (h : field.Steady r) :
    field.shape ≠ .polymorph mapping := by
  intro hs
  cases h with
  | scalar h | list h | named h | masked h => cases h.symm.trans hs

/-- The fields that registered models declare are steady if they are declared so. -/
theorem steady_of_isSteady (hp : field.Plain) (h : field.isSteady = true) : field.Steady r := by
  induction hp with
  | @scalar field kind hs =>
    cases field
    cases hs
    simp only [isSteady, Bool.and_eq_true, Bool.or_eq_true, Bool.not_eq_true',
      Option.isNone_iff_eq_none] at h
    refine .scalar rfl h.1 fun ho => ?_
    rcases h.2 with h | h
    · cases ho.symm.trans h
    · exact h
  | @list field items _ _ _ hs _ ih =>
    cases field
    cases hs
    simp only [isSteady, Bool.and_eq_true, Option.isNone_iff_eq_none] at h
    exact .list rfl h.1.1 h.1.2 (ih h.2)
  | @named field _ _ hs =>
    cases field
    cases hs
    simp only [isSteady, Bool.and_eq_true, Option.isNone_iff_eq_none] at h
    exact .named rfl h.1 h.2
  | @polymorph field _ hs =>
    cases field
    cases hs
    cases h

end Field

namespace Registry

variable {r : Registry} {selection : List Selector} {place : Pointer} {name : String} {m : Model}
  {flat : FlatModel}

/-- The fields that registered models flatten to are plain and steady if all fields are. -/
theorem steady_of_resolve (hp : r.Plain) (hs : r.isSteady = true) (hm : r.find? name = some m)
    (hflat : r.resolve m = .ok flat) {e : String × Field} (he : e ∈ flat.fields)
    (hd : e.2.discriminator = false) : e.2.Plain ∧ e.2.Steady r := by
  obtain ⟨name', owner, howner, hmem⟩ := registered_of_resolve hm hflat he hd
  have hplain := hp name' owner howner _ hmem
  have hfields := List.all_eq_true.1 hs owner (mem_toList_of_find? howner)
  exact ⟨hplain, Field.steady_of_isSteady hplain (List.all_eq_true.1 hfields e hmem)⟩

/--
What a selection makes of a steady field is steady, if the fields of what it makes of the registered
models are.
-/
theorem steady_of_narrows {field field' : Field} (h : field.Steady r)
    (hn : field.Narrows r selection place field')
    (ih : ∀ name m flat m', r.find? name = some m → r.resolve m = .ok flat →
      r.maskFlat true selection place flat = .ok m' →
        ∀ e ∈ m'.fields, e.2.discriminator = false → e.2.Steady r) : field'.Steady r := by
  induction hn with
  | scalar hs ho =>
    refine .scalar hs h.source_eq fun _ => h.default_eq fun kind hkind => ?_
    rwa [← Shape.scalar.inj (hs.symm.trans hkind)]
  | list hs _ ihi =>
    have hdefault := h.default_eq fun kind hkind => nomatch hs.symm.trans hkind
    exact .list rfl h.source_eq hdefault (ihi (h.items hs))
  | named hs hm hflat hmasked =>
    obtain ⟨masked, hres, -, hfields, hmask⟩ := resolve_maskFlat (settled_of_resolve hflat) hmasked
    have hdefault := h.default_eq fun kind hkind => nomatch hs.symm.trans hkind
    refine .masked rfl h.source_eq hdefault hres hmask ?_
    rw [hfields]
    exact ih _ _ _ _ hm hflat hmasked
  | polymorph hs => exact absurd hs h.shape_ne_polymorph

/-- **The fields of a masked copy of a registered model are steady** if all fields are. -/
theorem steady_of_maskFlat (hp : r.Plain) (hs : r.isSteady = true) (selection : List Selector)
    {name : String} {m : Model} {flat : FlatModel} {place : Pointer} {m' : Model}
    (hm : r.find? name = some m) (hflat : r.resolve m = .ok flat)
    (h : r.maskFlat true selection place flat = .ok m') :
    ∀ e ∈ m'.fields, e.2.discriminator = false → e.2.Steady r := by
  obtain ⟨picked, hpicked, rfl⟩ := maskFlat_eq_ok.1 h
  intro e he hd
  rcases mem_addRest he with he | he
  · rw [pickFields_eq_foldlM] at hpicked
    refine foldlM_induct (P := fun picked => ∀ e ∈ picked, e.2.discriminator = false →
      e.2.Steady r) (fun picked s hmem out ih hpick => ?_) (List.forall_mem_nil _) hpicked e he hd
    by_cases hw : s = .wildcard
    · rw [hw, pickField_wildcard] at hpick
      obtain rfl := Except.ok.inj hpick
      exact ih
    · rw [pickField_eq hw] at hpick
      split at hpick
      · obtain rfl := Except.ok.inj hpick
        exact ih
      · rename_i field hfield
        obtain ⟨narrowed, hn, hpick⟩ := bind_eq_ok.1 hpick
        obtain rfl := pure_eq_ok.1 hpick
        intro e he hd
        rcases Keyed.mem_put he with rfl | he
        · have hfield (hd : field.discriminator = false) :=
            steady_of_resolve hp hs hm hflat (Keyed.mem_of_lookup hfield) hd
          cases s with
          | wildcard => exact absurd rfl hw
          | leaf key =>
            obtain rfl := Except.ok.inj hn
            exact (hfield hd).2
          | nested key children =>
            obtain ⟨shape, mask, hkept⟩ := Field.narrow_eq_ok hn
            have hkept : narrowed.discriminator = field.discriminator := by rw [hkept]
            obtain ⟨hplain, hsteady⟩ := hfield (hkept ▸ hd)
            have := Selector.sizeOf_children_lt hmem
            refine steady_of_narrows hsteady (Field.narrows_of_narrow hplain hn) ?_
            intro name m flat m' hm hflat h
            exact steady_of_maskFlat hp hs children hm hflat h
        · exact ih e he hd
  · exact (steady_of_resolve hp hs hm hflat he hd).2
termination_by sizeOf selection

end Registry

end FieldMask
