import FieldMask.Proofs.Declaration.Sound
import FieldMask.Schema.Validation

/-!
# Schemas of loaded models

Whatever a loaded registry holds has a schema: its definitions (`exists_definitionsDocument`) and
the document of each of its models (`exists_modelDocument`). So a value is never refused for the
model that it is checked against (`validate_ne_model`).
-/

namespace FieldMask

namespace Field

variable {r : Registry} {field : Field}

theorem schema_list {items : Field} {least most : Option UInt64} {unique : Bool}
    (h : field.shape = .list items least most unique) :
    field.schema r = do
      return .obj <| Json.withoutNulls [
        ("type", .str SchemaType.array.name),
        ("items", ← items.schema r),
        ("minItems", (least.map .ofWord).getD .null),
        ("maxItems", (most.map .ofWord).getD .null),
        ("uniqueItems", if unique then .bool true else .null)] ++ field.annotations := by
  cases field
  cases h
  rfl

theorem schema_nested {target : Target} {asList : Bool} (h : field.shape = .nested target asList) :
    field.schema r = do
      discard (r.lookup target.name)
      return .obj (referring target.name asList field.annotations) := by
  cases field
  cases h
  rfl

theorem schema_polymorph {mapping : NameMap String} (h : field.shape = .polymorph mapping) :
    field.schema r = do
      let ancestor ← r.commonAncestor mapping.values
      return .obj (referring ancestor.name false field.annotations) := by
  cases field
  cases h
  rfl

/-- A plain field of which everything that it refers to is there has a schema. -/
theorem exists_schema (hp : field.Plain) (hf : field.Sound r) :
    ∃ out, field.schema r = .ok out := by
  induction hp with
  | @scalar field kind h =>
    cases field
    cases h
    exact ⟨_, rfl⟩
  | list h hi ih =>
    obtain ⟨items, hitems⟩ := ih (hf.items h)
    rw [schema_list h, hitems]
    exact ⟨_, rfl⟩
  | named h =>
    obtain ⟨model, hm⟩ := hf.target h
    rw [schema_nested h, Target.name, Registry.lookup_eq_ok.2 hm]
    exact ⟨_, rfl⟩
  | polymorph h =>
    obtain ⟨⟨ancestor, ha⟩, -⟩ := hf.mapping h
    rw [schema_polymorph h, ha]
    exact ⟨_, rfl⟩

end Field

namespace Model

variable {r : Registry} {model : Model}

theorem exists_ownSchema (h : ∀ e ∈ model.fields, ∃ out, e.2.schema r = .ok out) :
    ∃ out, model.ownSchema r = .ok out := by
  refine exists_bind_eq_ok (exists_mapM_eq_ok fun e he => ?_) fun properties _ => ⟨_, rfl⟩
  exact exists_bind_eq_ok (h e he) fun out _ => ⟨_, rfl⟩

theorem exists_schema (h : ∀ e ∈ model.fields, ∃ out, e.2.schema r = .ok out)
    (hp : ∀ parent ∈ model.parents, ∃ m, r.find? parent = some m) :
    ∃ out, model.schema r = .ok out := by
  refine exists_bind_eq_ok (exists_ownSchema h) fun own _ => ?_
  by_cases he : model.parents.isEmpty = true
  · rw [if_pos he]
    exact ⟨_, rfl⟩
  · rw [if_neg he]
    refine exists_bind_eq_ok (exists_mapM_eq_ok fun parent hmem => ?_) fun parents _ => ⟨_, rfl⟩
    obtain ⟨m, hm⟩ := hp parent hmem
    rw [Registry.lookup_eq_ok.2 hm]
    exact ⟨_, rfl⟩

end Model

namespace Registry

variable {r : Registry}

/-- Every registered model of a checked registry of plain fields has a schema. -/
theorem exists_schema (hp : r.Plain) (hc : r.check = .ok ()) {name : String} {model : Model}
    (hm : r.find? name = some model) : ∃ out, model.schema r = .ok out := by
  refine Model.exists_schema (fun e he => ?_) fun parent hparent => ?_
  · exact Field.exists_schema (hp name model hm e he) (sound_of_mem hp hc hm e he)
  · obtain ⟨flat, hflat, -⟩ := sound_of_check hp hc name model hm
    obtain ⟨fields, hfields, -⟩ := resolve_eq_ok.1 hflat
    exact find?_parent_of_collectAll hfields hparent

theorem exists_definitions (hp : r.Plain) (hc : r.check = .ok ()) :
    ∃ out, r.definitions = .ok out := by
  rw [definitions, hc, bind_ok]
  refine exists_mapM_eq_ok fun model hmem => ?_
  obtain ⟨name, hm⟩ := exists_find?_of_mem_toList hmem
  obtain ⟨out, hout⟩ := exists_schema hp hc hm
  rw [hout]
  exact ⟨_, rfl⟩

theorem exists_definitionsDocument (hp : r.Plain) (hc : r.check = .ok ()) :
    ∃ out, r.definitionsDocument = .ok out := by
  obtain ⟨definitions, hd⟩ := exists_definitions hp hc
  rw [definitionsDocument, hd]
  exact ⟨_, rfl⟩

theorem exists_modelDocument (hp : r.Plain) (hc : r.check = .ok ()) {name : String} {model : Model}
    (hm : r.find? name = some model) : ∃ out, r.modelDocument model = .ok out := by
  obtain ⟨schema, hs⟩ := exists_schema hp hc hm
  obtain ⟨definitions, hd⟩ := exists_definitions hp hc
  rw [modelDocument, hs, bind_ok]
  split
  · rw [hd]
    exact ⟨_, rfl⟩
  · exact ⟨_, rfl⟩

theorem validateRules_ne_model {document value : Json} {e : ModelError} :
    validateRules document value ≠ .error (.model e) := by
  intro h
  rcases bind_eq_error.1 h with h | ⟨rules, -, h⟩
  · obtain ⟨fault, -, h⟩ := mapError_eq_error.1 h
    cases h
  · split at h
    · cases h
    · cases h

/-- A value is never refused for the registered model that it is checked against. -/
theorem validate_ne_model (hp : r.Plain) (hc : r.check = .ok ()) {name : String} {model : Model}
    (hm : r.find? name = some model) (value : Json) (e : ModelError) :
    r.validate name value ≠ .error (.model e) := by
  obtain ⟨document, hd⟩ := exists_modelDocument hp hc hm
  have eq : r.validate name value = validateRules document value := by
    rw [validate, lookup_eq_ok.2 hm]
    show (r.modelDocument model).mapError ValidateError.model >>= _ = _
    rw [hd]
    rfl
  rw [eq]
  exact validateRules_ne_model

end Registry

end FieldMask
