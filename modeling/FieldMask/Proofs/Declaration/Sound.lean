import FieldMask.Document
import FieldMask.Proofs.Model.Sound

/-!
# Declared registries are sound

A declared field is plain: no masked copy of a model is in it. Registering declarations keeps the
own fields of all models plain (`plain_register`), and the check at the end of loading makes sure of
the rest, so that a loaded registry is sound (`sound_of_load`): what its models inherit or clone are
own fields of registered models, which are all checked.
-/

namespace FieldMask

/-- No masked copy of a model is in the field. -/
inductive Field.Plain : Field → Prop
  | scalar {field : Field} {kind : Kind} (h : field.shape = .scalar kind) : Field.Plain field
  | list {field items : Field} {least most : Option UInt64} {unique : Bool}
      (h : field.shape = .list items least most unique) (hi : Field.Plain items) : Field.Plain field
  | named {field : Field} {name : String} {asList : Bool}
      (h : field.shape = .nested (.named name) asList) : Field.Plain field
  | polymorph {field : Field} {mapping : NameMap String} (h : field.shape = .polymorph mapping) :
      Field.Plain field

/-- All own fields of the registered models are plain. -/
def Registry.Plain (r : Registry) : Prop :=
  ∀ name model, r.find? name = some model → ∀ e ∈ model.fields, e.2.Plain

namespace Field

variable {field other : Field}

theorem Plain.of_shape_eq (hf : field.Plain) (h : other.shape = field.shape) : other.Plain := by
  cases hf with
  | scalar h' => exact .scalar (h.trans h')
  | list h' hi => exact .list (h.trans h') hi
  | named h' => exact .named (h.trans h')
  | polymorph h' => exact .polymorph (h.trans h')

theorem innermost_list {items : Field} {least most : Option UInt64} {unique : Bool}
    (h : field.shape = .list items least most unique) : field.innermost = items.innermost := by
  cases field
  cases h
  rfl

theorem innermost_of_not_list
    (h : ∀ items least most unique, field.shape ≠ .list items least most unique) :
    field.innermost = field := by
  obtain ⟨shape⟩ := field
  cases shape with
  | list items least most unique => exact absurd rfl (h items least most unique)
  | scalar kind => rfl
  | nested target asList => rfl
  | polymorph mapping => rfl

end Field

/-! ## Reading -/

namespace Declaration

theorem plain_of_shapeOf {path : String} {d : FieldDeclaration} {shape : Shape} {field : Field}
    (h : shapeOf path d = .ok shape) (hf : field.shape = shape) : field.Plain := by
  unfold shapeOf at h
  split at h
  · split at h
    · obtain rfl := Except.ok.inj h
      exact .named hf
    · cases h
  · split at h
    · split at h
      · cases h
      · obtain rfl := Except.ok.inj h
        exact .polymorph hf
    · split at h
      · obtain rfl := Except.ok.inj h
        exact .scalar hf
      · cases h

theorem plain_of_readField {path : String} {value : Json} {field : Field}
    (h : readField path value = .ok field) : field.Plain := by
  rw [readField] at h
  obtain ⟨d, -, h⟩ := bind_eq_ok.1 h
  dsimp only at h
  split at h
  · split at h
    · rename_i items _
      obtain ⟨items', hi, h⟩ := bind_eq_ok.1 h
      obtain ⟨shape, hs, h⟩ := bind_eq_ok.1 h
      obtain ⟨mask, -, h⟩ := bind_eq_ok.1 h
      obtain rfl := pure_eq_ok.1 hs
      obtain rfl := pure_eq_ok.1 h
      have hplain : items'.Plain := plain_of_readField hi
      exact .list rfl hplain
    · obtain ⟨shape, hs, -⟩ := bind_eq_ok.1 h
      cases hs
  · obtain ⟨shape, hs, h⟩ := bind_eq_ok.1 h
    obtain ⟨mask, -, h⟩ := bind_eq_ok.1 h
    obtain rfl := pure_eq_ok.1 h
    exact plain_of_shapeOf hs rfl
termination_by sizeOf value
decreasing_by exact FieldDeclaration.sizeOf_itemsOf?_lt ‹_›

theorem plain_of_read {path : String} {value : Json} {d : Declaration}
    (h : read path value = .ok d) : ∀ e ∈ d.fields, e.2.Plain := by
  obtain ⟨declared, -, h⟩ := bind_eq_ok.1 h
  dsimp only at h
  split at h
  · cases h
  · obtain ⟨mask, -, h⟩ := bind_eq_ok.1 h
    obtain ⟨fields, hf, h⟩ := bind_eq_ok.1 h
    obtain rfl := pure_eq_ok.1 h
    intro e he
    obtain ⟨member, -, hm⟩ := exists_of_mem_mapM hf he
    obtain ⟨field, hread, hm⟩ := bind_eq_ok.1 hm
    obtain rfl := pure_eq_ok.1 hm
    exact plain_of_readField hread

end Declaration

/-! ## Registering -/

/-- The declared fields: of several of one name, the last one. -/
def Declaration.ownFields (d : Declaration) : Fields := Keyed.ofPairs d.fields

/-- All own fields of the registered models have the property. -/
def Registry.Own (P : Field → Prop) (r : Registry) : Prop :=
  ∀ name model, r.find? name = some model → ∀ e ∈ model.fields, P e.2

namespace Registry

variable {r : Registry} {P : Field → Prop}

theorem own_empty : Registry.empty.Own P := by
  intro name model h
  cases h

theorem Own.put {model : Model} (hr : r.Own P) (hm : ∀ e ∈ model.fields, P e.2) :
    (r.put model).Own P := by
  intro name m h
  rw [find?_put] at h
  split at h
  · obtain rfl := Option.some.inj h
    exact hm
  · exact hr name m h

variable (hP : ∀ field other : Field, P field → other.shape = field.shape → P other)

include hP

/-- What own fields have by their shape, the fields of a flat model have. -/
theorem Own.resolve (hr : r.Own P) {model : Model} (hm : ∀ e ∈ model.fields, P e.2)
    {flat : FlatModel} (h : r.resolve model = .ok flat) : ∀ e ∈ flat.fields, P e.2 := by
  intro e he
  obtain ⟨owner, field, howner, hmem, heq⟩ := own_of_resolve h he
  have hf : P field := by
    rcases howner with rfl | ⟨name, hname⟩
    · exact hm _ hmem
    · exact hr name owner hname _ hmem
  rw [heq]
  exact hP field _ hf Field.stamped_shape

theorem Own.resolveName (hr : r.Own P) {name : String} {flat : FlatModel}
    (h : r.resolveName name = .ok flat) : ∀ e ∈ flat.fields, P e.2 := by
  obtain ⟨model, hm, h⟩ := bind_eq_ok.1 h
  exact hr.resolve hP (hr name model (lookup_eq_ok.1 hm)) h

theorem own_copyFields {flats : List FlatModel} (h : ∀ flat ∈ flats, ∀ e ∈ flat.fields, P e.2) :
    ∀ e ∈ copyFields flats, P e.2 := by
  intro e he
  obtain ⟨flat, hflat, he⟩ := List.mem_flatMap.1 (Keyed.mem_of_mem_ofPairs he)
  obtain ⟨e, hmem, rfl⟩ := List.mem_map.1 he
  refine hP e.2 _ (h flat hflat e hmem) ?_
  dsimp only
  split <;> rfl

end Registry

namespace Declaration

variable {r : Registry}

theorem toModel_eq_ok {d : Declaration} {model : Model} :
    d.toModel r = .ok model ↔ ∃ flats, d.sources.mapM r.resolveName = .ok flats ∧
      { name := d.name
        parents := if d.sources.isEmpty then d.parents else []
        fields := Keyed.putAll (Registry.copyFields flats) d.fields
        mask := d.mask
        description := d.description
        strict := d.strict } = model := by
  simp [toModel]

theorem name_of_toModel {d : Declaration} {model : Model} (h : d.toModel r = .ok model) :
    model.name = d.name := by
  obtain ⟨flats, -, rfl⟩ := toModel_eq_ok.1 h
  rfl

theorem register_eq_ok {d : Declaration} {r' : Registry} :
    d.register r = .ok r' ↔ ∃ model, d.toModel r = .ok model ∧ r.define model = .ok r' :=
  bind_eq_ok

/-- Registering a declaration puts a model of its name, with its fields put to those it clones. -/
theorem exists_put_of_register {d : Declaration} {r' : Registry} (h : d.register r = .ok r') :
    ∃ flats, d.sources.mapM r.resolveName = .ok flats ∧ ∃ model : Model, model.name = d.name ∧
      model.fields = Keyed.putAll (Registry.copyFields flats) d.fields ∧ r.put model = r' := by
  obtain ⟨model, hm, h⟩ := register_eq_ok.1 h
  obtain ⟨flats, hflats, rfl⟩ := toModel_eq_ok.1 hm
  exact ⟨flats, hflats, _, rfl, rfl, (Registry.define_eq_ok.1 h).2.2⟩

/-- Registering a declaration keeps what own fields have by their shape, if the declared ones do. -/
theorem own_register {P : Field → Prop}
    (hP : ∀ field other : Field, P field → other.shape = field.shape → P other)
    (hr : r.Own P) {d : Declaration} (hd : ∀ e ∈ d.ownFields, P e.2) {r' : Registry}
    (h : d.register r = .ok r') : r'.Own P := by
  obtain ⟨flats, hflats, model, -, hfields, rfl⟩ := exists_put_of_register h
  refine hr.put fun e he => ?_
  rw [hfields, ← Keyed.putAll_ofPairs] at he
  rcases Keyed.mem_putAll he with he | he
  · refine Registry.own_copyFields hP (fun flat hflat => ?_) e he
    obtain ⟨name, -, hname⟩ := exists_of_mem_mapM hflats hflat
    exact hr.resolveName hP hname
  · exact hd e he

end Declaration

/-! ## Loading -/

namespace Registry

variable {r : Registry}

theorem mem_toList_of_find? {name : String} {model : Model} (h : r.find? name = some model) :
    model ∈ r.toList :=
  List.mem_map.2 ⟨(name, model), Keyed.mem_of_lookup h, rfl⟩

theorem exists_find?_of_mem_toList {model : Model} (h : model ∈ r.toList) :
    ∃ name, r.find? name = some model := by
  obtain ⟨e, he, rfl⟩ := List.mem_map.1 h
  exact ⟨e.1, find?_of_mem he⟩

theorem plain_empty : Registry.empty.Plain := own_empty

/-- The fields of a flat model are plain if all own fields are. -/
theorem plain_of_resolve (hr : r.Plain) {model : Model} (hm : ∀ e ∈ model.fields, e.2.Plain)
    {flat : FlatModel} (h : r.resolve model = .ok flat) : ∀ e ∈ flat.fields, e.2.Plain :=
  Own.resolve (fun _ _ => Field.Plain.of_shape_eq) hr hm h

/-- Registering a declaration of plain fields keeps the registry plain. -/
theorem plain_register (hr : r.Plain) {d : Declaration} (hd : ∀ e ∈ d.fields, e.2.Plain)
    {r' : Registry} (h : d.register r = .ok r') : r'.Plain :=
  Declaration.own_register (fun _ _ => Field.Plain.of_shape_eq) hr
    (fun e he => hd e (Keyed.mem_of_mem_ofPairs he)) h

/-- Register declarations, one after the other. -/
def registerAll (r : Registry) (ds : List Declaration) : Except ModelError Registry :=
  ds.foldlM (fun r d => d.register r) r

/-- Declarations that are registered as they are read are as well registered once all are read. -/
theorem foldlM_read_eq_ok {values : List (String × Json)} {loaded : Registry} :
    values.foldlM (fun r (path, value) => do
        let d ← (Declaration.read path value).mapError RegistryError.declaration
        (d.register r).mapError RegistryError.model) r = .ok loaded ↔
      ∃ ds, values.mapM (fun e => Declaration.read e.1 e.2) = .ok ds ∧
        r.registerAll ds = .ok loaded := by
  induction values generalizing r with
  | nil => simp [registerAll]
  | cons value values ih =>
    rw [List.foldlM_cons, List.mapM_cons]
    simp only [bind_eq_ok, mapError_eq_ok, pure_eq_ok, ih]
    constructor
    · rintro ⟨r', ⟨d, hd, hr'⟩, ds, hds, hl⟩
      exact ⟨d :: ds, ⟨d, hd, ds, hds, rfl⟩, List.foldlM_cons.trans (bind_eq_ok.2 ⟨r', hr', hl⟩)⟩
    · rintro ⟨_, ⟨d, hd, ds, hds, rfl⟩, hl⟩
      obtain ⟨r', hr', hl⟩ := bind_eq_ok.1 (List.foldlM_cons.symm.trans hl)
      exact ⟨r', ⟨d, hd, hr'⟩, ds, hds, hl⟩

/-- To load a document is to read its declarations, to register them and to check the registry. -/
theorem load_eq_ok {document : Json} :
    Registry.load document = .ok r ↔
      ∃ values ds, Declaration.valuesOf document = .ok values ∧
        values.mapM (fun e => Declaration.read e.1 e.2) = .ok ds ∧
        Registry.empty.registerAll ds = .ok r ∧ r.check = .ok () := by
  unfold load ofDocument
  simp only [mapError_eq_ok, bind_eq_ok, pure_eq_ok, foldlM_read_eq_ok]
  constructor
  · rintro ⟨values, hv, loaded, ⟨ds, hds, hl⟩, _, hc, rfl⟩
    exact ⟨values, ds, hv, hds, hl, hc⟩
  · rintro ⟨values, ds, hv, hds, hl, hc⟩
    exact ⟨values, hv, r, ⟨ds, hds, hl⟩, (), hc, rfl⟩

/-- A loaded registry has plain fields and is checked. -/
theorem of_load {document : Json} (h : Registry.load document = .ok r) :
    r.Plain ∧ r.check = .ok () := by
  obtain ⟨values, ds, -, hds, hl, hc⟩ := load_eq_ok.1 h
  refine ⟨?_, hc⟩
  refine foldlM_induct (P := Registry.Plain) (fun r d hd r' hr h => ?_) plain_empty hl
  obtain ⟨value, -, hread⟩ := exists_of_mem_mapM hds hd
  exact plain_register hr (Declaration.plain_of_read hread) h

theorem checkField_scalar {field : Field} {kind : Kind} (h : field.shape = .scalar kind) :
    r.checkField field = .ok () := by
  have hi : field.innermost = field := Field.innermost_of_not_list fun _ _ _ _ hs => by
    cases h.symm.trans hs
  rw [checkField, Field.references, checkPolymorph, hi, h]
  rfl

theorem checkField_list {field items : Field} {least most : Option UInt64} {unique : Bool}
    (h : field.shape = .list items least most unique) :
    r.checkField field = r.checkField items := by
  rw [checkField, checkField, Field.references, Field.references, checkPolymorph, checkPolymorph,
    Field.innermost_list h]

theorem checkField_named {field : Field} {name : String} {asList : Bool}
    (h : field.shape = .nested (.named name) asList) :
    r.checkField field = discard (r.lookup name) := by
  have hi : field.innermost = field := Field.innermost_of_not_list fun _ _ _ _ hs => by
    cases h.symm.trans hs
  rw [checkField, Field.references, checkPolymorph, hi, h]
  show ((discard (r.lookup name) >>= fun _ => pure ()) >>= fun _ => .ok ()) = _
  cases r.lookup name <;> rfl

theorem checkField_polymorph {field : Field} {mapping : NameMap String}
    (h : field.shape = .polymorph mapping) :
    r.checkField field = (mapping.values.forM fun name => discard (r.lookup name)) >>=
      fun _ => discard (r.commonAncestor mapping.values) := by
  have hi : field.innermost = field := Field.innermost_of_not_list fun _ _ _ _ hs => by
    cases h.symm.trans hs
  rw [checkField, Field.references, checkPolymorph, hi, h]

/-- The check of a plain field finds everything that it refers to. -/
theorem sound_of_checkField {field : Field} (hf : field.Plain) (h : r.checkField field = .ok ()) :
    field.Sound r := by
  induction hf with
  | scalar hs => exact .scalar hs
  | list hs hi ih => exact .list hs (ih (checkField_list hs ▸ h))
  | named hs =>
    rw [checkField_named hs, discard_eq_ok] at h
    obtain ⟨model, hm⟩ := h
    exact .named hs (lookup_eq_ok.1 hm)
  | polymorph hs =>
    rw [checkField_polymorph hs] at h
    obtain ⟨_, hrefs, hpoly⟩ := bind_eq_ok.1 h
    obtain ⟨ancestor, ha⟩ := discard_eq_ok.1 hpoly
    refine .polymorph hs ha fun name hname => ?_
    obtain ⟨model, hm⟩ := discard_eq_ok.1 (forM_eq_ok.1 hrefs name hname)
    exact ⟨model, lookup_eq_ok.1 hm⟩

/-- The own fields of the models of a checked registry are sound. -/
theorem sound_of_mem (hr : r.Plain) (hc : r.check = .ok ()) {name : String} {model : Model}
    (hm : r.find? name = some model) : ∀ e ∈ model.fields, e.2.Sound r := by
  intro e he
  have hmodel : r.checkModel model = .ok () := forM_eq_ok.1 hc model (mem_toList_of_find? hm)
  obtain ⟨_, -, hfields⟩ := bind_eq_ok.1 hmodel
  exact sound_of_checkField (hr name model hm e he) (forM_eq_ok.1 hfields e he)

/-- **A checked registry of plain fields is sound.** -/
theorem sound_of_check (hr : r.Plain) (hc : r.check = .ok ()) : r.Sound := by
  intro name model hm
  have hmodel : r.checkModel model = .ok () := forM_eq_ok.1 hc model (mem_toList_of_find? hm)
  obtain ⟨_, hres, -⟩ := bind_eq_ok.1 hmodel
  obtain ⟨flat, hflat⟩ := discard_eq_ok.1 hres
  refine ⟨flat, hflat, fun e he => ?_⟩
  obtain ⟨owner, field, howner, hmem, heq⟩ := own_of_resolve hflat he
  have hf : field.Sound r := by
    rcases howner with rfl | ⟨name', hname'⟩
    · exact sound_of_mem hr hc hm _ hmem
    · exact sound_of_mem hr hc hname' _ hmem
  rw [heq]
  exact hf.of_shape_eq Field.stamped_shape

theorem sound_of_load {document : Json} (h : Registry.load document = .ok r) : r.Sound :=
  sound_of_check (of_load h).1 (of_load h).2

/-! ## A document of models that refer to each other -/

/-- A declaration of a field. -/
def declared (type : String) (more : Members) : Json := .obj (("type", .str type) :: more)

/-- Animals and their keepers, who refer to each other. -/
def menagerie : Json := .obj [("models", .arr [
  .obj [("name", .str "Animal"), ("fields", .obj [
    ("kind", declared "string" [("discriminator", .bool true)]),
    ("keeper", declared "nested" [("model", .str "Keeper")])])],
  .obj [("name", .str "Cat"), ("inherits", .strings ["Animal"]), ("fields", .obj [
    ("toys", declared "list" [("items", declared "raw" [])])])],
  .obj [("name", .str "Keeper"), ("fields", .obj [
    ("name", declared "string" []),
    ("pets", declared "list" [("items", declared "polymorph" [
      ("mapping", .obj [("cat", .str "Cat"), ("other", .str "Animal")])])])])]])]

end Registry

end FieldMask
