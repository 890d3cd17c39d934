import FieldMask.Proofs.Model.Extension
import FieldMask.Proofs.Schema.Conformance
import FieldMask.Proofs.Schema.Positions

/-!
# The fragments of definitions

The definitions of a registry are listed by name, one for each registered model, and every schema in
them is a tidy object (`definitions_tidy`): none of its members is null, a reference stands alone
and is to a registered model, and what is required or discriminates is a property beside it.
-/

namespace FieldMask

/-! ## Positions of schemas -/

/--
A schema stands in another one: as that schema, or in a property, in the items or in a part of a
composition.
-/
inductive Json.Subschema : Json → Json → Prop
  | self (s : Json) : Json.Subschema s s
  | property {members properties : Members} {name : String} {s t : Json}
      (hp : ("properties", .obj properties) ∈ members) (hs : (name, s) ∈ properties)
      (h : Json.Subschema s t) : Json.Subschema (.obj members) t
  | items {members : Members} {s t : Json} (hs : ("items", s) ∈ members)
      (h : Json.Subschema s t) : Json.Subschema (.obj members) t
  | part {members : Members} {parts : List Json} {s t : Json}
      (hp : ("allOf", .arr parts) ∈ members) (hs : s ∈ parts)
      (h : Json.Subschema s t) : Json.Subschema (.obj members) t

namespace Registry

/-- What holds of the members of a schema, whatever the schemas in it are. -/
structure Tidy (r : Registry) (members : Members) : Prop where
  distinct : (Keyed.keys members).Nodup
  notNull : ∀ m ∈ members, m.2 ≠ .null
  /-- A reference is the only member, and it is to a registered model. -/
  reference : ∀ text, ("$ref", text) ∈ members → members = [("$ref", text)] ∧
    ∃ name model, r.find? name = some model ∧ text = .str ("#/definitions/" ++ name)
  /-- What is required are some properties, in ascending order. -/
  required : ∀ value, ("required", value) ∈ members → ∃ names properties,
    value = .strings names ∧ names ≠ [] ∧ names.Pairwise (· < ·) ∧
      ("properties", .obj properties) ∈ members ∧ names ⊆ Keyed.keys properties
  /-- The discriminator is a property. -/
  discriminator : ∀ value, ("discriminator", value) ∈ members → ∃ name properties,
    value = .str name ∧ ("properties", .obj properties) ∈ members ∧ name ∈ Keyed.keys properties

/-- Every schema in a schema is a tidy object. -/
def TidyWithin (r : Registry) (s : Json) : Prop :=
  ∀ t, s.Subschema t → ∃ members, t = .obj members ∧ r.Tidy members

variable {r : Registry} {members : Members} {name : String}

/-- Members are tidy without references, and if nothing is required or discriminated by. -/
theorem tidy_of_keys (hd : (Keyed.keys members).Nodup) (hn : ∀ m ∈ members, m.2 ≠ .null)
    (hk : ∀ key ∈ ["$ref", "required", "discriminator"], key ∉ Keyed.keys members) :
    r.Tidy members where
  distinct := hd
  notNull := hn
  reference _ h := absurd (Keyed.mem_keys_of_mem h) (hk "$ref" (by decide))
  required _ h := absurd (Keyed.mem_keys_of_mem h) (hk "required" (by decide))
  discriminator _ h := absurd (Keyed.mem_keys_of_mem h) (hk "discriminator" (by decide))

/-- A tidy object is tidy within if the schemas right below it are. -/
theorem tidyWithin_obj (h : r.Tidy members)
    (hproperties : ∀ properties, ("properties", .obj properties) ∈ members →
      ∀ e ∈ properties, r.TidyWithin e.2)
    (hitems : ∀ s, ("items", s) ∈ members → r.TidyWithin s)
    (hparts : ∀ parts, ("allOf", .arr parts) ∈ members → ∀ s ∈ parts, r.TidyWithin s) :
    r.TidyWithin (.obj members) := by
  intro t ht
  cases ht with
  | self => exact ⟨members, rfl, h⟩
  | property hp hs ht => exact hproperties _ hp _ hs t ht
  | items hs ht => exact hitems _ hs t ht
  | part hp hs ht => exact hparts _ hp _ hs t ht

theorem tidyWithin_reference {model : Model} (h : r.find? name = some model) :
    r.TidyWithin (FieldMask.reference name) := by
  have htidy : r.Tidy [("$ref", .str (referenceStem ++ name))] := by
    refine ⟨by simp, by simp, fun text htext => ?_, by simp, by simp⟩
    obtain rfl : text = .str (referenceStem ++ name) := by simpa using htext
    exact ⟨rfl, name, model, h, rfl⟩
  exact tidyWithin_obj htidy (by simp) (by simp) (by simp)

end Registry

/-! ## Fields -/

namespace Json

variable {members : Members}

theorem ne_null_of_mem_withoutNulls : ∀ m ∈ withoutNulls members, m.2 ≠ .null := by
  intro m hm
  simpa using (List.mem_filter.1 hm).2

theorem keys_withoutNulls : (Keyed.keys (withoutNulls members)).Sublist (Keyed.keys members) :=
  List.filter_sublist.map _

end Json

namespace Field

variable {r : Registry} {field : Field} {members : Members}

/-- The keywords that the shape of a field decides. -/
def shapeKeywords : List String :=
  ["type", "format", "items", "minItems", "maxItems", "uniqueItems", "allOf"]

/-- A member that no annotation has is one of those before the annotations. -/
theorem mem_of_mem_append_annotations {key : String} {value : Json}
    (h : (key, value) ∈ members ++ field.annotations)
    (hk : key ∉ annotationKeywords) : (key, value) ∈ members := by
  rcases List.mem_append.1 h with h | h
  · exact h
  · exact absurd (keys_annotations_subset (Keyed.mem_keys_of_mem h)) hk

/-- Annotations go with the keywords that fields have, of which none is a reference. -/
theorem tidyWithin_append_annotations (hn : ∀ m ∈ members, m.2 ≠ .null)
    (hk : (Keyed.keys members).Sublist shapeKeywords)
    (hitems : ∀ s, ("items", s) ∈ members → r.TidyWithin s)
    (hparts : ∀ parts, ("allOf", .arr parts) ∈ members → ∀ s ∈ parts, r.TidyWithin s) :
    r.TidyWithin (.obj (members ++ field.annotations)) := by
  have hkeys : (Keyed.keys (members ++ field.annotations)).Sublist
      (shapeKeywords ++ annotationKeywords) := by
    rw [Keyed.keys_append]
    exact hk.append Json.keys_withoutNulls
  have hother : ∀ key ∈ ["$ref", "required", "discriminator", "properties"],
      key ∉ shapeKeywords ++ annotationKeywords := by decide
  refine Registry.tidyWithin_obj (Registry.tidy_of_keys ?_ ?_ ?_) ?_ ?_ ?_
  · exact hkeys.nodup (by decide)
  · exact List.forall_mem_append.2 ⟨hn, Json.ne_null_of_mem_withoutNulls⟩
  · exact fun key hkey hmem =>
      hother key (List.mem_append_left ["properties"] hkey) (hkeys.subset hmem)
  · exact fun _ hmem =>
      absurd (hkeys.subset (Keyed.mem_keys_of_mem hmem)) (hother "properties" (by decide))
  · exact fun s hmem => hitems s (mem_of_mem_append_annotations hmem (by decide))
  · exact fun parts hmem => hparts parts (mem_of_mem_append_annotations hmem (by decide))

theorem tidyWithin_referring {name : String} {model : Model} (h : r.find? name = some model)
    {asList : Bool} : r.TidyWithin (.obj (referring name asList field.annotations)) := by
  unfold referring
  split
  · refine tidyWithin_append_annotations (by simp [reference]) (by simp [shapeKeywords]) ?_
      (by simp)
    intro s hs
    obtain rfl : s = reference name := by simpa using hs
    exact Registry.tidyWithin_reference h
  · split
    · exact Registry.tidyWithin_reference h
    · rw [← List.singleton_append]
      refine tidyWithin_append_annotations (by simp) (by simp [shapeKeywords]) (by simp) ?_
      intro parts hparts s hs
      obtain rfl : parts = [reference name] := by simpa using hparts
      obtain rfl := List.mem_singleton.1 hs
      exact Registry.tidyWithin_reference h

/-- Every schema in the schema of a field is tidy. -/
theorem tidyWithin_schema {out : Json} : (field : Field) → field.schema r = .ok out →
    r.TidyWithin out
  | { shape := .scalar kind, .. }, h => by
    rw [schema_scalar rfl] at h
    obtain rfl := Except.ok.inj h
    refine tidyWithin_append_annotations Json.ne_null_of_mem_withoutNulls ?_ ?_ ?_
    · exact Json.keys_withoutNulls.trans (by simp [shapeKeywords])
    · exact fun s hs => by simpa using List.mem_of_mem_filter hs
    · exact fun parts hparts => by simpa using List.mem_of_mem_filter hparts
  | { shape := .list items least most unique, .. }, h => by
    rw [schema_list rfl] at h
    obtain ⟨inner, hinner, h⟩ := bind_eq_ok.1 h
    obtain rfl := pure_eq_ok.1 h
    refine tidyWithin_append_annotations Json.ne_null_of_mem_withoutNulls ?_ ?_ ?_
    · exact Json.keys_withoutNulls.trans (by simp [shapeKeywords])
    · intro s hs
      obtain rfl : s = inner := by simpa using List.mem_of_mem_filter hs
      exact tidyWithin_schema items hinner
    · exact fun parts hparts => by simpa using List.mem_of_mem_filter hparts
  | { shape := .nested target asList, .. }, h => by
    rw [schema_nested rfl] at h
    obtain ⟨u, hu, h⟩ := bind_eq_ok.1 h
    obtain rfl := pure_eq_ok.1 h
    obtain ⟨owner, ho⟩ := find?_of_discard hu
    exact tidyWithin_referring ho
  | { shape := .polymorph mapping, .. }, h => by
    rw [schema_polymorph rfl] at h
    obtain ⟨ancestor, ha, h⟩ := bind_eq_ok.1 h
    obtain rfl := pure_eq_ok.1 h
    obtain ⟨name, hname⟩ := Registry.mem_of_commonAncestor ha
    obtain rfl := Registry.name_of_find? hname
    exact tidyWithin_referring hname

end Field

/-! ## Models -/

namespace Model

variable {r : Registry} {model : Model} {properties : Members} {out : Json}

theorem nodup_ownMembers : (Keyed.keys (model.ownMembers properties)).Nodup :=
  Json.keys_withoutNulls.nodup (by simp)

theorem mem_ownMembers : ("properties", .obj properties) ∈ model.ownMembers properties := by
  simp [ownMembers, Json.withoutNulls]

/-- The own schema of a model lists what is required, if anything is. -/
theorem required_mem_ownMembers {value : Json} :
    ("required", value) ∈ model.ownMembers properties ↔
      model.requiredNames ≠ [] ∧ value = .strings model.requiredNames := by
  constructor
  · intro h
    have hne := Json.ne_null_of_mem_withoutNulls _ h
    have heq : value = if model.requiredNames.isEmpty then .null
        else .strings model.requiredNames := by
      simpa [ownMembers] using List.mem_of_mem_filter h
    split at heq
    · exact absurd heq hne
    · rename_i hempty
      exact ⟨fun hnil => hempty (List.isEmpty_iff.2 hnil), heq⟩
  · rintro ⟨hne, rfl⟩
    simp [ownMembers, Json.withoutNulls, Json.strings, hne]

/-- The keywords of a model's own fields are tidy if there is a property for every field. -/
theorem tidy_ownMembers (h : Keyed.keys model.fields ⊆ Keyed.keys properties) :
    r.Tidy (model.ownMembers properties) where
  distinct := nodup_ownMembers
  notNull := Json.ne_null_of_mem_withoutNulls
  reference text htext := by simpa [ownMembers] using List.mem_of_mem_filter htext
  required value hvalue := by
    obtain ⟨hne, heq⟩ := required_mem_ownMembers.1 hvalue
    refine ⟨_, properties, heq, hne, ascending_requiredNames, mem_ownMembers, fun name hname => ?_⟩
    obtain ⟨e, he, -, rfl⟩ := mem_requiredNames.1 hname
    exact h (Keyed.mem_keys_of_mem he)
  discriminator value hvalue := by
    have hne := Json.ne_null_of_mem_withoutNulls _ hvalue
    have heq : value = .ofString?
        ((model.fields.filter (fun f => f.2.discriminator)).map (·.1)).getLast? := by
      simpa [ownMembers] using List.mem_of_mem_filter hvalue
    cases hlast : ((model.fields.filter (fun f => f.2.discriminator)).map (·.1)).getLast? with
    | none => exact absurd (heq.trans (by rw [hlast]; rfl)) hne
    | some name =>
      refine ⟨name, properties, heq.trans (by rw [hlast]; rfl), mem_ownMembers, h ?_⟩
      obtain ⟨e, he, rfl⟩ := List.mem_map.1 (List.mem_of_getLast? hlast)
      exact Keyed.mem_keys_of_mem (List.mem_of_mem_filter he)

theorem tidyWithin_own (hrel : model.Properties r properties) :
    r.TidyWithin (.obj (model.ownMembers (Keyed.ofPairs properties))) := by
  refine Registry.tidyWithin_obj (tidy_ownMembers ?_) ?_ ?_ ?_
  · rw [hrel.keys_eq]
    exact Keyed.subset_keys_putAll
  · intro shown hshown e he
    obtain rfl : shown = Keyed.ofPairs properties := by
      simpa [ownMembers] using List.mem_of_mem_filter hshown
    obtain ⟨⟨_, field⟩, -, -, hschema⟩ := exists_left_of_mem hrel (Keyed.mem_of_mem_ofPairs he)
    exact Field.tidyWithin_schema field hschema
  · exact fun s hs => by simpa [ownMembers] using List.mem_of_mem_filter hs
  · exact fun parts hparts => by simpa [ownMembers] using List.mem_of_mem_filter hparts

/-- Every schema in the schema of a model is tidy. -/
theorem tidyWithin_schema (h : model.schema r = .ok out) : r.TidyWithin out := by
  obtain ⟨properties, hrel, rfl⟩ := schema_eq_ofPairs h
  rw [schemaMembers]
  split
  · exact tidyWithin_own hrel
  · have htidy {parts : List Json} : r.Tidy [("allOf", .arr parts)] :=
      Registry.tidy_of_keys (by simp) (by simp) (by simp)
    refine Registry.tidyWithin_obj htidy (by simp) (by simp) ?_
    intro parts hparts s hs
    obtain rfl : parts = _ := by simpa using hparts
    rcases List.mem_append.1 hs with hs | hs
    · obtain ⟨parent, hparent, rfl⟩ := List.mem_map.1 hs
      obtain ⟨owner, ho⟩ := find?_parent_of_schema h hparent
      exact Registry.tidyWithin_reference ho
    · obtain rfl := List.mem_singleton.1 hs
      exact tidyWithin_own hrel

end Model

/-! ## Definitions -/

namespace Registry

variable {r : Registry} {definitions : Members}

/--
**Definitions are tidy**: they are listed by name, one for each registered model, and every schema
in them is a tidy object.
-/
theorem definitions_tidy (h : r.definitions = .ok definitions) :
    ((Keyed.keys definitions).Pairwise (· < ·) ∧
        ∀ name, name ∈ Keyed.keys definitions ↔ ∃ model, r.find? name = some model) ∧
      ∀ d ∈ definitions, ∀ t, d.2.Subschema t → ∃ members, t = .obj members ∧ r.Tidy members := by
  rw [keys_definitions h]
  refine ⟨⟨r.ascending_names, fun name => mem_names_iff⟩, fun d hd => ?_⟩
  obtain ⟨model, -, -, hschema⟩ := exists_left_of_mem (definitions_eq_ok h) hd
  exact Model.tidyWithin_schema hschema

/-- What places require is a property beside it, and shops refer to places. -/
theorem definitions_tidy_shops :
    let place : Members := [("type", .str "object"),
      ("properties", .obj [("spot", .obj [("type", .str "object"),
        ("enum", .arr [.obj [("x", .ofWord 1), ("y", .ofWord 2)]])])]),
      ("required", .strings ["spot"])]
    let reference : Members := [("$ref", .str "#/definitions/Place")]
    let own : Members := [("type", .str "object"),
      ("properties", .obj [("codes", .obj [("type", .str "array"),
        ("items", .obj [("type", .str "integer")]), ("uniqueItems", .bool true)]),
        ("tag", .obj [("$ref", .str "#/definitions/Tag")])])]
    let tag : Members := [("type", .str "object"),
      ("properties", .obj [("label", .obj [("type", .str "string")])]),
      ("required", .strings ["label"]), ("additionalProperties", .bool false)]
    let definitions : Members := [("Place", .obj place),
      ("Shop", .obj [("allOf", .arr [.obj reference, .obj own])]), ("Tag", .obj tag)]
    ∃ r, Registry.load shops = .ok r ∧ r.definitions = .ok definitions ∧
      r.Tidy place ∧ r.Tidy reference ∧ r.Tidy own ∧ r.Tidy tag := by
  intro place reference own tag definitions
  have h : ((Registry.load shops).toOption.any fun r =>
      r.definitions.toOption.any (· == definitions)) = true := by
    cbv
  obtain ⟨r, hl, h⟩ := exists_of_any_toOption h
  obtain ⟨definitions', hd, heq⟩ := exists_of_any_toOption h
  obtain rfl : definitions' = definitions := eq_of_beq heq
  have htidy (name : String) {s : Json} {members : Members}
      (hs : definitions.lookup name = some s) (h : s.Subschema (.obj members)) :
      r.Tidy members := by
    obtain ⟨_, heq, htidy⟩ := (definitions_tidy hd).2 _ (Keyed.mem_of_lookup hs) _ h
    exact Json.obj.inj heq ▸ htidy
  refine ⟨r, hl, hd, htidy "Place" rfl (.self _), htidy "Shop" rfl ?_, htidy "Shop" rfl ?_,
    htidy "Tag" rfl (.self _)⟩
  · exact .part List.mem_cons_self List.mem_cons_self (.self _)
  · exact .part List.mem_cons_self (List.mem_cons_of_mem _ List.mem_cons_self) (.self _)

end Registry

end FieldMask
