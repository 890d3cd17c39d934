import FieldMask.Proofs.Mask.Picked
import FieldMask.Proofs.Model.Picking
import FieldMask.Proofs.Schema.Tidy

/-!
# Schemas of masked models

To mask a model and write its schema comes to the same as to write the schema of the flat model and
to mask its properties with the names at the root of the mask (`schema_maskModel`). What is selected
below a field shows in no schema (`Field.schema_narrow`): it stays with the field until there is a
value, or goes on with a copy of the model that the field refers to, of the same name.
-/

namespace FieldMask

/-! ## The root of a mask -/

namespace Selector

/-- The selector of the same name with nothing selected below it. -/
def shallow : Selector → Selector
  | .wildcard => .wildcard
  | .leaf name => .leaf name
  | .nested name _ => .leaf name

theorem keepsName_shallow : KeepsName shallow where
  wildcard_iff s := by cases s <;> simp [shallow]
  name_eq s := by cases s <;> rfl

variable {skipMissing : Bool} {place : Pointer}

theorem selectFrom_shallow (s : Selector) (value : Json) :
    s.shallow.selectFrom skipMissing place value = .ok value := by
  cases s <;> rfl

/-- Selectors without anything below them can be followed into any object. -/
theorem exists_filter_shallow (siblings : List Selector) (data : Members) :
    ∃ out, filter (siblings.map shallow) skipMissing place data = .ok out := by
  refine exists_filter_iff.2 fun s hs _ => ?_
  obtain ⟨s, -, rfl⟩ := List.mem_map.1 hs
  cases data.lookup s.shallow.name with
  | none => exact ⟨_, rfl⟩
  | some value => exact ⟨_, memberFrom_some_eq_ok.2 ⟨value, selectFrom_shallow s value, rfl⟩⟩

end Selector

/-- The mask of the names at the root. -/
def Mask.shallow (mask : Mask) : Mask := ⟨mask.selectors.map Selector.shallow⟩

/-! ## Narrowed fields -/

/-- A field that is narrowed keeps its schema, if the models that it refers to keep their names. -/
theorem Field.schema_narrow {r : Registry} {selection : List Selector} {place : Pointer}
    {below : Target → Except MaskError Model}
    (hb : ∀ target model, below target = .ok model → model.name = target.name) :
    (field out : Field) → field.narrow selection place below = .ok out →
      out.schema r = field.schema r
  | { shape := .scalar kind, .. }, out, h => by
    rw [narrow_scalar rfl] at h
    split at h
    · obtain rfl := Except.ok.inj h
      rfl
    · cases h
  | { shape := .list items least most unique, .. }, out, h => by
    rw [narrow_list rfl] at h
    obtain ⟨items', hitems, h⟩ := bind_eq_ok.1 h
    obtain rfl := pure_eq_ok.1 h
    refine (schema_list rfl).trans ?_
    rw [schema_narrow hb items items' hitems]
    rfl
  | { shape := .nested target asList, .. }, out, h => by
    rw [narrow_nested rfl] at h
    obtain ⟨model, hmodel, h⟩ := bind_eq_ok.1 h
    obtain rfl := pure_eq_ok.1 h
    rw [schema_nested rfl, schema_nested rfl, ← hb target model hmodel]
    rfl
  | { shape := .polymorph mapping, .. }, out, h => by
    rw [narrow_polymorph rfl] at h
    obtain rfl := Except.ok.inj h
    rfl

namespace Registry

variable {r : Registry} {skipMissing : Bool} {selection : List Selector} {place : Pointer}

theorem name_of_resolveTarget {target : Target} {flat : FlatModel}
    (h : r.resolveTarget target = .ok flat) : flat.name = target.name := by
  cases target with
  | named name =>
    obtain ⟨model, hm, h⟩ := bind_eq_ok.1 h
    obtain ⟨_, -, -, rfl⟩ := resolve_eq_ok.1 h
    exact name_of_find? (lookup_eq_ok.1 hm)
  | masked model =>
    obtain ⟨_, -, -, rfl⟩ := resolve_eq_ok.1 h
    rfl

/-- A masked copy goes by the name of the model that it is a copy of. -/
theorem name_of_maskTarget {target : Target} {model : Model}
    (h : r.maskTarget skipMissing selection place target = .ok model) :
    model.name = target.name := by
  obtain ⟨flat, hflat, h⟩ := bind_eq_ok.1 h
  obtain ⟨picked, -, rfl⟩ := maskFlat_eq_ok.1 h
  exact name_of_resolveTarget (mapError_eq_ok.1 hflat)

/-- What a selector leaves of a field has the schema of the field, and is required like it. -/
theorem schema_selectFrom {field out : Field} {s : Selector}
    (h : r.selectFrom skipMissing place field s = .ok out) :
    out.schema r = field.schema r ∧ out.required = field.required := by
  cases s with
  | wildcard | leaf =>
    obtain rfl := Except.ok.inj h
    exact ⟨rfl, rfl⟩
  | nested name children =>
    refine ⟨Field.schema_narrow (fun _ _ => name_of_maskTarget) field out h, ?_⟩
    obtain ⟨shape, mask, rfl⟩ := Field.narrow_eq_ok h
    rfl

end Registry

/-! ## Own schemas -/

/-- The member that lists required names, which is left out if there are none. -/
def requiredMember (names : List String) : Option Json :=
  if names.isEmpty then none else some (.strings names)

namespace Model

variable {r : Registry} {model : Model} {properties : Members}

/-- The schema of a model without parents, from the schemas of its fields. -/
theorem schema_of_properties (hn : (Keyed.keys model.fields).Nodup) (hp : model.parents = [])
    (h : model.Properties r properties) :
    model.schema r = .ok (.obj (model.ownMembers properties)) := by
  have hmap : (model.fields.mapM fun (e : String × Field) => do return (e.1, ← e.2.schema r))
      = .ok properties := by
    refine mapM_eq_ok.2 (h.imp ?_)
    rintro e ⟨key, out⟩ ⟨rfl, hout⟩
    dsimp only at hout
    rw [hout]
    rfl
  have hown : model.ownSchema r = .ok (.obj (model.ownMembers (Keyed.ofPairs properties))) :=
    bind_eq_ok.2 ⟨properties, hmap, rfl⟩
  rw [schema, hown, hp, Keyed.ofPairs_eq_self (h.keys_eq ▸ hn)]
  rfl

theorem get?_properties_own :
    (Json.obj (model.ownMembers properties)).get? "properties" = some (.obj properties) :=
  Keyed.lookup_of_mem nodup_ownMembers mem_ownMembers

theorem get?_required_own :
    (Json.obj (model.ownMembers properties)).get? "required"
      = requiredMember model.requiredNames := by
  rw [requiredMember, Json.get?]
  split
  · rename_i hempty
    refine Option.eq_none_iff_forall_ne_some.2 fun value hvalue => ?_
    exact (required_mem_ownMembers.1 (Keyed.mem_of_lookup hvalue)).1 (List.isEmpty_iff.1 hempty)
  · rename_i hempty
    refine Keyed.lookup_of_mem nodup_ownMembers (required_mem_ownMembers.2 ⟨?_, rfl⟩)
    exact fun hnil => hempty (List.isEmpty_iff.2 hnil)

end Model

/-! ## Masked models -/

namespace Registry

variable {r : Registry} {flat : FlatModel} {selection : List Selector} {place q : Pointer}
  {properties picked : Members} {masked : Model}

/-- The field has the schema, and it is required like the whole field of its name. -/
def Shows (r : Registry) (fields : Fields) (key : String) (field : Field) (out : Json) : Prop :=
  ∃ whole, (key, whole) ∈ fields ∧ field.required = whole.required ∧ field.schema r = .ok out

/-- The picked fields show what is picked of the properties. -/
theorem related_maskFlat (hn : (Keyed.keys flat.fields).Nodup)
    (hp : flat.toModel.Properties r properties)
    (hm : r.maskFlat true selection place flat = .ok masked)
    (hq : Selector.filter (selection.map Selector.shallow) true q properties = .ok picked) :
    Keyed.Related (r.Shows flat.fields) masked.fields picked := by
  have hfull : Keyed.Related
      (fun key field out => (key, field) ∈ flat.fields ∧ field.schema r = .ok out)
      flat.fields properties := by
    refine ((List.forall₂_and_left _ _).2 ⟨fun e he => he, hp⟩).imp ?_
    rintro e m ⟨he, hkey, hout⟩
    exact ⟨hkey, he, hout⟩
  refine related_of_filter Selector.keepsName_shallow hn hfull ?_ ?_ hm hq
  · rintro key field out ⟨hmem, hout⟩
    exact ⟨field, hmem, rfl, hout⟩
  · rintro s - field out field' out' hmem ⟨-, hout⟩ hfield' hout'
    obtain ⟨hschema, hrequired⟩ := schema_selectFrom hfield'
    obtain rfl := Except.ok.inj ((Selector.selectFrom_shallow s out).symm.trans hout')
    exact ⟨field, hmem, hrequired, hschema.trans hout⟩

/-- A masked copy requires what the flat model requires and the mask selects. -/
theorem requiredNames_masked (hn : (Keyed.keys flat.fields).Nodup)
    (h : Keyed.Related (r.Shows flat.fields) masked.fields picked) :
    masked.requiredNames
      = flat.toModel.requiredNames.filter fun name => Keyed.contains picked name := by
  refine eq_of_ascending Model.ascending_requiredNames
    (Model.ascending_requiredNames.filter _) fun name => ?_
  rw [List.mem_filter, Model.mem_requiredNames, Model.mem_requiredNames, Keyed.contains_iff,
    ← h.keys_eq]
  constructor
  · rintro ⟨e, he, hrequired, rfl⟩
    obtain ⟨m, -, -, whole, hwhole, hsame, -⟩ := exists_right_of_mem h he
    exact ⟨⟨_, hwhole, hsame.symm.trans hrequired, rfl⟩, Keyed.mem_keys_of_mem he⟩
  · rintro ⟨⟨⟨_, field⟩, hfield, hrequired, rfl⟩, hkey⟩
    obtain ⟨e, he, hname⟩ := List.mem_map.1 hkey
    obtain ⟨m, -, -, whole, hwhole, hsame, -⟩ := exists_right_of_mem h he
    have hlookup := Keyed.lookup_of_mem hn (hname ▸ hwhole)
    obtain rfl := Option.some.inj ((Keyed.lookup_of_mem hn hfield).symm.trans hlookup)
    exact ⟨e, he, hsame.trans hrequired, hname⟩

/--
**Masking a model masks the properties of its schema**: for a registered model of a loaded registry,
the schema of what a mask makes of the model has the properties that the names at the root of the
mask select in the schema of the flat model, in the same order, and it requires those of them that
the flat model requires.
-/
theorem schema_maskModel {source : Json} (h : Registry.load source = .ok r) {name : String}
    {model : Model} (hm : r.find? name = some model) {mask : Mask}
    (hmask : r.maskModel mask true model = .ok masked) :
    ∃ flat full out properties picked names,
      r.resolve model = .ok flat ∧ flat.toModel.schema r = .ok full ∧ masked.schema r = .ok out ∧
      full.get? "properties" = some properties ∧ mask.shallow.apply true properties = .ok picked ∧
      out.get? "properties" = some picked ∧
      full.get? "required" = requiredMember names ∧
      out.get? "required"
        = requiredMember (names.filter fun name => (picked.get? name).isSome) := by
  obtain ⟨flat, hflat, hmasked⟩ := bind_eq_ok.1 hmask
  have hflat := mapError_eq_ok.1 hflat
  have hn := (settled_of_resolve hflat).nodup
  obtain ⟨flat', hflat', hsound⟩ := sound_of_load h name model hm
  obtain rfl := Except.ok.inj (hflat.symm.trans hflat')
  have hplain := plain_of_resolve (of_load h).1 ((of_load h).1 name model hm) hflat
  obtain ⟨full, hfull⟩ : ∃ full, flat.toModel.schema r = .ok full :=
    Model.exists_schema (fun e he => Field.exists_schema (hplain e he) (hsound e he)) nofun
  obtain ⟨properties, hp, rfl⟩ := Model.schema_eq_ok hn hfull
  obtain ⟨picked, hq⟩ := @Selector.exists_filter_shallow true .root mask.selectors properties
  have hrel := related_maskFlat hn hp hmasked hq
  have hout : masked.schema r = .ok (.obj (masked.ownMembers picked)) := by
    refine Model.schema_of_properties (picked_maskFlat hmasked).1 ?_ (hrel.imp ?_)
    · obtain ⟨fields, -, rfl⟩ := maskFlat_eq_ok.1 hmasked
      rfl
    · rintro e m ⟨hkey, -, -, -, hschema⟩
      exact ⟨hkey, hschema⟩
  refine ⟨flat, _, _, .obj properties, .obj picked, flat.toModel.requiredNames, hflat, hfull, hout,
    Model.get?_properties_own, ?_, Model.get?_properties_own, Model.get?_required_own, ?_⟩
  · exact bind_eq_ok.2 ⟨picked, hq, rfl⟩
  · rw [Model.get?_required_own, requiredNames_masked hn hrel]
    rfl

/-- Below the tag of a shop the mask shows in no schema, and the spot, left out, is not required. -/
theorem schema_maskModel_shops :
    let mask : Mask := ⟨[.nested "tag" [.leaf "label"], .leaf "color"]⟩
    let picked : Json := .obj [("tag", .obj [("$ref", .str "#/definitions/Tag")])]
    ∃ r model masked flat full properties, Registry.load shops = .ok r ∧
      r.find? "Shop" = some model ∧ r.maskModel mask true model = .ok masked ∧
      r.resolve model = .ok flat ∧ flat.toModel.schema r = .ok full ∧
      masked.schema r = .ok (.obj [("type", .str "object"), ("properties", picked)]) ∧
      full.get? "required" = some (.strings ["spot"]) ∧
      full.get? "properties" = some properties ∧
      mask.shallow.apply true properties = .ok picked := by
  intro mask picked
  have h : ((Registry.load shops).toOption.any fun r => (r.find? "Shop").any fun model =>
      ((r.maskModel mask true model).toOption.any fun masked => (masked.schema r).toOption.any
        (· == .obj [("type", .str "object"), ("properties", picked)])) &&
      (r.resolve model).toOption.any fun flat => (flat.toModel.schema r).toOption.any
        fun full => full.get? "required" == some (.strings ["spot"])) = true := by
    cbv
  obtain ⟨r, hl, h⟩ := exists_of_any_toOption h
  obtain ⟨model, hm, h⟩ := (Option.any_eq_true _ _).1 h
  obtain ⟨hmasked, hflat⟩ := Bool.and_eq_true_iff.1 h
  obtain ⟨masked, hmasked, hout⟩ := exists_of_any_toOption hmasked
  obtain ⟨out, hout, heq⟩ := exists_of_any_toOption hout
  obtain rfl := eq_of_beq heq
  obtain ⟨flat, hflat, hfull⟩ := exists_of_any_toOption hflat
  obtain ⟨full, hfull, hrequired⟩ := exists_of_any_toOption hfull
  obtain ⟨_, _, _, properties, picked', _, hflat', hfull', hout', hproperties, happly, hpicked,
    -⟩ := schema_maskModel hl hm hmasked
  obtain rfl := Except.ok.inj (hflat.symm.trans hflat')
  obtain rfl := Except.ok.inj (hfull.symm.trans hfull')
  obtain rfl := Except.ok.inj (hout.symm.trans hout')
  obtain rfl : picked = picked' := Option.some.inj hpicked
  exact ⟨r, model, masked, flat, full, properties, hl, hm, hmasked, hflat, hfull, hout,
    eq_of_beq hrequired, hproperties, happly⟩

end Registry

end FieldMask
