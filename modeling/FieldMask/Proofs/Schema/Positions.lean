import FieldMask.Proofs.Schema.Fragment
import FieldMask.Proofs.Schema.Grounding

/-!
# References where they are written

A reference in the document of a model stands where a field or a list of parents names a model, and
it has the name of that model as it is (`referenceAt_modelDocument`). So it leads to the schema of
the model that is named if the name is verbatim, and only then it means the place where that schema
stands (`references_resolve`). The name of a model can be any text; a slash or an escape in it makes
the reference lead elsewhere (`reference_lost`).
-/

namespace FieldMask

/-! ## Positions -/

/--
The text stands under `$ref` in a schema that is the value, at the root or at a place below it:
under the name of a property, in the items, in a part of a composition or in a definition.
-/
inductive Json.ReferenceAt : Json → List String → Json → Prop
  | here {s text : Json} (hs : s.get? "$ref" = some text) : Json.ReferenceAt s [] text
  | property {s t text : Json} {properties : Members} {name : String} {place : List String}
      (hs : s.get? "properties" = some (.obj properties)) (ht : (name, t) ∈ properties)
      (h : Json.ReferenceAt t place text) :
      Json.ReferenceAt s ("properties" :: name :: place) text
  | items {s t text : Json} {place : List String} (hs : s.get? "items" = some t)
      (h : Json.ReferenceAt t place text) : Json.ReferenceAt s ("items" :: place) text
  | part {s t text : Json} {parts : List Json} {i : Nat} {place : List String}
      (hs : s.get? "allOf" = some (.arr parts)) (ht : parts[i]? = some t)
      (h : Json.ReferenceAt t place text) :
      Json.ReferenceAt s ("allOf" :: Number.intText i :: place) text
  | definition {s t text : Json} {definitions : Members} {name : String} {place : List String}
      (hs : s.get? "definitions" = some (.obj definitions)) (ht : (name, t) ∈ definitions)
      (h : Json.ReferenceAt t place text) :
      Json.ReferenceAt s ("definitions" :: name :: place) text

/-- The field names the model, through the items of lists. -/
inductive Field.Names (r : Registry) : Field → String → Prop
  | list {field items : Field} {least most : Option UInt64} {unique : Bool} {target : String}
      (hs : field.shape = .list items least most unique) (h : Field.Names r items target) :
      Field.Names r field target
  | nested {field : Field} {target : Target} {asList : Bool}
      (hs : field.shape = .nested target asList) : Field.Names r field target.name
  | polymorph {field : Field} {mapping : NameMap String} {ancestor : Model}
      (hs : field.shape = .polymorph mapping)
      (ha : r.commonAncestor mapping.values = .ok ancestor) : Field.Names r field ancestor.name

/-- The place of the own fields in the schema of a model: behind the parents, if there are any. -/
def Model.ownPlace (model : Model) : List String :=
  if model.parents.isEmpty then [] else ["allOf", Number.intText model.parents.length]

/--
A model is named at the place in the document of another one: by its list of parents, by the own
field whose property is at the place, or in the same way by a registered model among the
definitions.
-/
inductive Registry.NamedAt (r : Registry) : Model → List String → String → Prop
  | parent {model : Model} {i : Nat} {target : String} (hp : model.parents[i]? = some target) :
      Registry.NamedAt r model ["allOf", Number.intText i] target
  | field {model : Model} {name target : String} {field : Field} {place : List String}
      (hf : (name, field) ∈ Keyed.ofPairs model.fields) (ht : field.Names r target) :
      Registry.NamedAt r model (model.ownPlace ++ "properties" :: name :: place) target
  | definition {model other : Model} {name target : String} {place : List String}
      (hm : r.find? name = some other) (h : Registry.NamedAt r other place target) :
      Registry.NamedAt r model ("definitions" :: name :: place) target

namespace Json

variable {members : Members} {name : String} {place : List String} {text : Json}

theorem mem_keys_of_get? {v : Json} (h : (Json.obj members).get? name = some v) :
    name ∈ Keyed.keys members :=
  Keyed.mem_keys_of_mem (Keyed.mem_of_lookup h)

theorem mem_of_get?_withoutNulls {v : Json}
    (h : (Json.obj (withoutNulls members)).get? name = some v) : (name, v) ∈ members :=
  List.mem_of_mem_filter (Keyed.mem_of_lookup h)

theorem ReferenceAt.eq_of_reference (h : (reference name).ReferenceAt place text) :
    place = [] ∧ text = .str (referenceStem ++ name) := by
  have hkeys {key : String} {v : Json} (hs : (reference name).get? key = some v) : key = "$ref" :=
    List.mem_singleton.1 (mem_keys_of_get? hs)
  cases h with
  | here hs => exact ⟨rfl, (Option.some.inj hs).symm⟩
  | property hs | items hs | part hs | definition hs => exact absurd (hkeys hs) (by decide)

end Json

/-! ## Fields -/

namespace Field

variable {r : Registry} {field : Field} {out text : Json} {place : List String}

/-- The keywords of annotations. -/
def annotationKeywords : List String :=
  ["title", "description", "readOnly", "default", "example", "enum"]

theorem keys_annotations_subset : Keyed.keys field.annotations ⊆ annotationKeywords :=
  List.Sublist.subset (List.filter_sublist.map _)

/-- A keyword that no annotation has is one of those before the annotations. -/
theorem get?_append_annotations {members : Members} {key : String}
    (h : key ∉ annotationKeywords) :
    (Json.obj (members ++ field.annotations)).get? key = (Json.obj members).get? key := by
  have hnone : field.annotations.lookup key = none :=
    Keyed.lookup_eq_none_iff.2 fun hmem => h (keys_annotations_subset hmem)
  rw [Json.get?, Json.get?, List.lookup_append, hnone, Option.or_none]

/-- A field that refers to a model has references to that model alone. -/
theorem eq_of_referenceAt_referring {name : String} {asList : Bool}
    (h : (Json.obj (referring name asList field.annotations)).ReferenceAt place text) :
    text = .str (referenceStem ++ name) := by
  unfold referring at h
  split at h
  · cases h with
    | items hs h =>
      rw [get?_append_annotations (by decide)] at hs
      obtain rfl : reference name = _ := Option.some.inj hs
      exact h.eq_of_reference.2
    | here hs | property hs | part hs | definition hs =>
      rw [get?_append_annotations (by decide)] at hs
      cases hs
  · split at h
    · exact (Json.ReferenceAt.eq_of_reference h).2
    · have hcons : ("allOf", Json.arr [reference name]) :: field.annotations
          = [("allOf", Json.arr [reference name])] ++ field.annotations := rfl
      rw [hcons] at h
      cases h with
      | @part _ t _ parts i _ hs ht h =>
        rw [get?_append_annotations (by decide)] at hs
        obtain rfl : [reference name] = parts := Json.arr.inj (Option.some.inj hs)
        obtain rfl : t = reference name := List.mem_singleton.1 (List.mem_of_getElem? ht)
        exact h.eq_of_reference.2
      | here hs | property hs | items hs | definition hs =>
        rw [get?_append_annotations (by decide)] at hs
        cases hs

theorem find?_of_discard {name : String} {u : Unit} (h : discard (r.lookup name) = .ok u) :
    ∃ owner, r.find? name = some owner := by
  obtain ⟨owner, ho⟩ := discard_eq_ok.1 h
  exact ⟨owner, Registry.lookup_eq_ok.1 ho⟩

/-- Every reference in the schema of a field is to the registered model that the field names. -/
theorem referenceAt_schema {out text : Json} {place : List String} : (field : Field) →
    field.schema r = .ok out → out.ReferenceAt place text →
      ∃ target owner, field.Names r target ∧ r.find? target = some owner ∧
        text = .str (referenceStem ++ target)
  | { shape := .scalar kind, .. }, hs, h => by
    rw [schema_scalar rfl] at hs
    obtain rfl := Except.ok.inj hs
    cases h with
    | here hs | property hs | items hs | part hs | definition hs =>
      rw [get?_append_annotations (by decide)] at hs
      simpa using Json.mem_of_get?_withoutNulls hs
  | { shape := .list items least most unique, .. }, hs, h => by
    rw [schema_list rfl] at hs
    obtain ⟨inner, hinner, hs⟩ := bind_eq_ok.1 hs
    obtain rfl := pure_eq_ok.1 hs
    cases h with
    | @items _ t _ _ hs h =>
      rw [get?_append_annotations (by decide)] at hs
      obtain rfl : t = inner := by simpa using Json.mem_of_get?_withoutNulls hs
      obtain ⟨target, owner, ht, ho, htext⟩ := referenceAt_schema items hinner h
      exact ⟨target, owner, .list rfl ht, ho, htext⟩
    | here hs | property hs | part hs | definition hs =>
      rw [get?_append_annotations (by decide)] at hs
      simpa using Json.mem_of_get?_withoutNulls hs
  | { shape := .nested target asList, .. }, hs, h => by
    rw [schema_nested rfl] at hs
    obtain ⟨u, hu, hs⟩ := bind_eq_ok.1 hs
    obtain rfl := pure_eq_ok.1 hs
    obtain ⟨owner, ho⟩ := find?_of_discard hu
    exact ⟨_, owner, .nested rfl, ho, eq_of_referenceAt_referring h⟩
  | { shape := .polymorph mapping, .. }, hs, h => by
    rw [schema_polymorph rfl] at hs
    obtain ⟨ancestor, ha, hs⟩ := bind_eq_ok.1 hs
    obtain rfl := pure_eq_ok.1 hs
    obtain ⟨name, hname⟩ := Registry.mem_of_commonAncestor ha
    obtain rfl := Registry.name_of_find? hname
    exact ⟨_, ancestor, .polymorph rfl ha, hname, eq_of_referenceAt_referring h⟩

end Field

/-! ## Models -/

namespace Model

variable {r : Registry} {model : Model} {own properties : Members} {out text : Json}
  {place : List String}

/-- Every reference in the own schema of a model is to the model that a field names there. -/
theorem referenceAt_own (hrel : model.Properties r properties)
    (h : (Json.obj (model.ownMembers (Keyed.ofPairs properties))).ReferenceAt place text) :
    ∃ target owner, r.NamedAt model (model.ownPlace ++ place) target ∧
      r.find? target = some owner ∧ text = .str (referenceStem ++ target) := by
  cases h with
  | @property _ t _ shown name rest hs ht h =>
    obtain rfl : shown = Keyed.ofPairs properties := by
      simpa [ownMembers] using Json.mem_of_get?_withoutNulls hs
    have hpairs : Keyed.Related (fun _ field out => field.schema r = .ok out)
        (Keyed.ofPairs model.fields) (Keyed.ofPairs properties) := Keyed.Related.putAll .nil hrel
    obtain ⟨⟨key, field⟩, hf, hkey, hschema⟩ := exists_left_of_mem hpairs ht
    obtain rfl : key = name := hkey
    obtain ⟨target, owner, htarget, ho, htext⟩ := Field.referenceAt_schema field hschema h
    exact ⟨target, owner, .field hf htarget, ho, htext⟩
  | here hs | items hs | part hs | definition hs =>
    simpa [ownMembers] using Json.mem_of_get?_withoutNulls hs

theorem find?_parent_of_schema (h : model.schema r = .ok out) {parent : String}
    (hp : parent ∈ model.parents) : ∃ owner, r.find? parent = some owner := by
  obtain ⟨own, -, h⟩ := bind_eq_ok.1 h
  split at h
  · rename_i hempty
    exact absurd (List.isEmpty_iff.1 hempty ▸ hp) List.not_mem_nil
  · obtain ⟨parents, hparents, -⟩ := bind_eq_ok.1 h
    obtain ⟨_, -, hout⟩ := exists_right_of_mem (mapM_eq_ok.1 hparents) hp
    obtain ⟨_, hfound, -⟩ := bind_eq_ok.1 hout
    exact Field.find?_of_discard hfound

/-- Every reference in the schema of a model is to the registered model that is named there. -/
theorem referenceAt_schema (hs : model.schema r = .ok out) (h : out.ReferenceAt place text) :
    ∃ target owner, r.NamedAt model place target ∧ r.find? target = some owner ∧
      text = .str (referenceStem ++ target) := by
  obtain ⟨properties, hrel, rfl⟩ := schema_eq_ofPairs hs
  by_cases hempty : model.parents.isEmpty = true
  · rw [schemaMembers, if_pos hempty] at h
    obtain ⟨target, owner, hnamed, ho, htext⟩ := referenceAt_own hrel h
    rw [ownPlace, if_pos hempty] at hnamed
    exact ⟨target, owner, hnamed, ho, htext⟩
  · rw [schemaMembers, if_neg hempty] at h
    cases h with
    | @part _ t _ parts i rest hparts ht h =>
      obtain rfl := Json.arr.inj (Option.some.inj hparts)
      rcases Nat.lt_or_ge i model.parents.length with hlt | hge
      · rw [List.getElem?_append_left (by simpa using hlt), List.getElem?_map,
          List.getElem?_eq_getElem hlt] at ht
        obtain rfl := Option.some.inj ht
        obtain ⟨rfl, htext⟩ := h.eq_of_reference
        obtain ⟨owner, ho⟩ := find?_parent_of_schema hs (List.getElem_mem hlt)
        exact ⟨_, owner, .parent (List.getElem?_eq_getElem hlt), ho, htext⟩
      · rw [List.getElem?_append_right (by simpa using hge), List.length_map,
          List.getElem?_singleton] at ht
        split at ht
        · obtain rfl := Option.some.inj ht
          obtain rfl : i = model.parents.length := by omega
          obtain ⟨target, owner, hnamed, ho, htext⟩ := referenceAt_own hrel h
          rw [ownPlace, if_neg hempty] at hnamed
          exact ⟨target, owner, hnamed, ho, htext⟩
        · cases ht
    | here hs | property hs | items hs | definition hs => cases hs

end Model

/-! ## Documents -/

namespace Registry

variable {r : Registry} {model : Model} {definitions : Members} {document text : Json}
  {name : String} {place : List String}

/-- The document of a registered model has its schema, and all schemas among the definitions. -/
theorem exists_modelDocument_eq (hd : r.definitions = .ok definitions)
    (hm : r.find? name = some model) :
    ∃ members, model.schema r = .ok (.obj members) ∧
      r.modelDocument model = .ok (.obj (Keyed.put "definitions" (.obj definitions) members)) := by
  obtain ⟨out, hout, -⟩ := lookup_definitions hd hm
  obtain ⟨properties, -, rfl⟩ := Model.schema_eq_ofPairs hout
  refine ⟨_, hout, ?_⟩
  rw [modelDocument, hout, hd]
  rfl

/-- A reference beside definitions is one of the schema itself, or stands in a definition. -/
theorem referenceAt_put_definitions {members : Members}
    (h : (Json.obj (Keyed.put "definitions" (.obj definitions) members)).ReferenceAt place text) :
    (Json.obj members).ReferenceAt place text ∨ ∃ key t rest, (key, t) ∈ definitions ∧
      place = "definitions" :: key :: rest ∧ t.ReferenceAt rest text := by
  have hget {key : String} (hk : key ≠ "definitions") :
      (Json.obj (Keyed.put "definitions" (.obj definitions) members)).get? key
        = (Json.obj members).get? key := by
    rw [Json.get?, Json.get?, Keyed.lookup_put, if_neg hk]
  cases h with
  | here hs =>
    rw [hget (by decide)] at hs
    exact .inl (.here hs)
  | property hs ht h =>
    rw [hget (by decide)] at hs
    exact .inl (.property hs ht h)
  | items hs h =>
    rw [hget (by decide)] at hs
    exact .inl (.items hs h)
  | part hs ht h =>
    rw [hget (by decide)] at hs
    exact .inl (.part hs ht h)
  | definition hs ht h =>
    rw [Json.get?, Keyed.lookup_put, if_pos rfl] at hs
    obtain rfl := Json.obj.inj (Option.some.inj hs)
    exact .inr ⟨_, _, _, ht, rfl, h⟩

/-- Every reference in the document of a model is to the registered model that is named there. -/
theorem referenceAt_modelDocument (hd : r.definitions = .ok definitions)
    (hm : r.find? name = some model) (hdocument : r.modelDocument model = .ok document)
    (h : document.ReferenceAt place text) :
    ∃ target owner, r.NamedAt model place target ∧ r.find? target = some owner ∧
      text = .str (referenceStem ++ target) := by
  obtain ⟨members, hschema, heq⟩ := exists_modelDocument_eq hd hm
  obtain rfl := Except.ok.inj (hdocument.symm.trans heq)
  rcases referenceAt_put_definitions h with hown | ⟨key, t, rest, ht, rfl, hother⟩
  · exact Model.referenceAt_schema hschema hown
  · obtain ⟨other, hmem, hkey, hschema'⟩ := exists_left_of_mem (definitions_eq_ok hd) ht
    obtain ⟨name', hname'⟩ := exists_find?_of_mem_toList hmem
    obtain rfl : key = name' := hkey.trans (name_of_find? hname')
    obtain ⟨target, owner, hnamed, ho, htext⟩ := Model.referenceAt_schema hschema' hother
    exact ⟨target, owner, .definition hname' hnamed, ho, htext⟩

/--
**Every reference names its model where it is written**: in the document of a registered model, a
reference has the name of the model that a field or a list of parents names at its place, and the
schema of that model stands under the name among the definitions. The reference means that place
just if the name is verbatim, and then it leads to the schema.
-/
theorem references_resolve (hd : r.definitions = .ok definitions)
    (hm : r.find? name = some model) :
    ∃ document, r.modelDocument model = .ok document ∧
      ∀ place text, document.ReferenceAt place text →
        ∃ target owner out, r.NamedAt model place target ∧
          text = .str (referenceStem ++ target) ∧
          r.find? target = some owner ∧ owner.schema r = .ok out ∧
          document.at? (Reference.placeOf target) = some out ∧
          (Reference.place? (referenceStem ++ target) = some (Reference.placeOf target)
            ↔ isVerbatim target = true) ∧
          (isVerbatim target = true →
            Reference.resolve document (referenceStem ++ target) = .ok out) := by
  obtain ⟨members, -, hdocument⟩ := exists_modelDocument_eq hd hm
  refine ⟨_, hdocument, fun place text h => ?_⟩
  obtain ⟨target, owner, hnamed, ho, htext⟩ := referenceAt_modelDocument hd hm hdocument h
  obtain ⟨out, hout, hlookup⟩ := lookup_definitions hd ho
  have hget : (Json.obj (Keyed.put "definitions" (.obj definitions) members)).get? "definitions"
      = some (.obj definitions) := by
    rw [Json.get?, Keyed.lookup_put, if_pos rfl]
  exact ⟨target, owner, out, hnamed, htext, ho, hout, Reference.at?_placeOf hget hlookup,
    Reference.place?_stem_iff, fun hv => Reference.resolve_stem hv hget hlookup⟩

/-- A reference tells which model is named. -/
theorem stem_injective : Function.Injective (referenceStem ++ ·) := by
  intro name other h
  rw [← @referredName_stem name, ← @referredName_stem other]
  exact congrArg referredName h

theorem referenceAt_property
    (h : ((document.get? "properties").bind (·.get? name)).bind (·.get? "$ref") = some text) :
    document.ReferenceAt ["properties", name] text := by
  obtain ⟨t, ht, htext⟩ := Option.bind_eq_some_iff.1 h
  obtain ⟨properties, hproperties, ht⟩ := Option.bind_eq_some_iff.1 ht
  cases properties with
  | obj members => exact .property hproperties (Keyed.mem_of_lookup ht) (.here htext)
  | _ => cases ht

theorem references_resolve_menagerie :
    ∃ r model definitions document, Registry.load menagerie = .ok r ∧
      r.definitions = .ok definitions ∧ r.find? "Animal" = some model ∧
      r.modelDocument model = .ok document ∧
      document.ReferenceAt ["properties", "keeper"] (.str "#/definitions/Keeper") ∧
      ∃ owner out, r.find? "Keeper" = some owner ∧ owner.schema r = .ok out ∧
        Reference.resolve document "#/definitions/Keeper" = .ok out := by
  have h : ((Registry.load menagerie).toOption.any fun r => (r.find? "Animal").any fun model =>
      (r.modelDocument model).toOption.any fun document =>
        ((document.get? "properties").bind (·.get? "keeper")).bind (·.get? "$ref")
          == some (.str "#/definitions/Keeper")) = true := by
    cbv
  obtain ⟨r, hl, h⟩ := exists_of_any_toOption h
  obtain ⟨model, hm, h⟩ := (Option.any_eq_true _ _).1 h
  obtain ⟨document, hdocument, href⟩ := exists_of_any_toOption h
  have href := referenceAt_property (eq_of_beq href)
  obtain ⟨definitions, hd⟩ := exists_definitions (of_load hl).1 (of_load hl).2
  obtain ⟨document', hdocument', hall⟩ := references_resolve hd hm
  obtain rfl := Except.ok.inj (hdocument.symm.trans hdocument')
  obtain ⟨target, owner, out, -, htext, ho, hout, -, -, hresolve⟩ := hall _ _ href
  obtain rfl : "Keeper" = target := stem_injective (Json.str.inj htext)
  exact ⟨r, model, definitions, document, hl, hd, hm, hdocument, href, owner, out, ho, hout,
    hresolve (by decide)⟩

/-- Two models, of which one is nested in the other under a name with a slash. -/
def slashed : Json := .obj [("models", .arr [
  .obj [("name", .str "a/b"), ("fields", .obj [("v", declared "integer" [])])],
  .obj [("name", .str "P"), ("fields", .obj [("x", declared "nested" [("model", .str "a/b")])])]])]

/-- The model under the name with a slash has a schema, but the reference to it leads nowhere. -/
theorem reference_lost :
    ∃ r model definitions document owner out, Registry.load slashed = .ok r ∧
      r.definitions = .ok definitions ∧ r.find? "P" = some model ∧
      r.modelDocument model = .ok document ∧ r.NamedAt model ["properties", "x"] "a/b" ∧
      document.ReferenceAt ["properties", "x"] (.str "#/definitions/a/b") ∧
      r.find? "a/b" = some owner ∧ owner.schema r = .ok out ∧
      ∀ v, Reference.resolve document "#/definitions/a/b" ≠ .ok v := by
  have h : ((Registry.load slashed).toOption.any fun r => (r.find? "P").any fun model =>
      (r.modelDocument model).toOption.any fun document =>
        ((document.get? "properties").bind (·.get? "x")).bind (·.get? "$ref")
            == some (.str "#/definitions/a/b") &&
          (document.at? ⟨["definitions", "a", "b"]⟩).isNone) = true := by
    cbv
  obtain ⟨r, hl, h⟩ := exists_of_any_toOption h
  obtain ⟨model, hm, h⟩ := (Option.any_eq_true _ _).1 h
  obtain ⟨document, hdocument, h⟩ := exists_of_any_toOption h
  obtain ⟨href, hnone⟩ := Bool.and_eq_true_iff.1 h
  have href := referenceAt_property (eq_of_beq href)
  obtain ⟨definitions, hd⟩ := exists_definitions (of_load hl).1 (of_load hl).2
  obtain ⟨target, owner, hnamed, ho, htext⟩ := referenceAt_modelDocument hd hm hdocument href
  obtain rfl : "a/b" = target := stem_injective (Json.str.inj htext)
  obtain ⟨out, hout, -⟩ := lookup_definitions hd ho
  refine ⟨r, model, definitions, document, owner, out, hl, hd, hm, hdocument, hnamed, href, ho,
    hout, fun v hv => ?_⟩
  have hplace : Reference.place? (referenceStem ++ "a/b") = some ⟨["definitions", "a", "b"]⟩ := by
    rw [Reference.place?_stem_of_all (by decide), Pointer.ofText?_eq_some_iff]
    decide
  have hat := (Reference.resolve_stem_eq_ok hplace).1 hv
  rw [Option.isNone_iff_eq_none.1 hnone] at hat
  cases hat

end Registry

end FieldMask
