import FieldMask.Proofs.Schema.Definition
import FieldMask.Proofs.Schema.Meaning

/-!
# What the schemas of models ask for

The keywords of the schemas that fields and models are written as. A field asks for its type and
its choices, a model for an object with its fields, and with parents for what each of them and its
own fields ask for; what a schema tells a reader only is of no consequence.
-/

namespace FieldMask

open Schema

namespace Schema

variable {entries : List Entry} {members more : Members} {name : String} {value : Json}

/-- The keywords that members write among the members of a schema. -/
def keywordsOf (entries : List Entry) (members : Members) : List Keyword :=
  members.filterMap fun m => Entry.keyword? entries ⟨m.1, m.2, partsOf m.2⟩

theorem entriesOf_eq_map : entriesOf members = members.map fun m => ⟨m.1, m.2, partsOf m.2⟩ := by
  induction members with
  | nil => rfl
  | cons m rest ih => rw [entriesOf, ih, List.map_cons]

theorem schemasOf_eq_map {values : List Json} : schemasOf values = values.map ofJson := by
  induction values with
  | nil => rfl
  | cons value rest ih => rw [schemasOf, ih, List.map_cons, ofJson]

theorem ofJson_obj :
    ofJson (.obj members) = .keywords (keywordsOf (entriesOf members) members) := by
  rw [ofJson, partsOf, keywordsOf]
  dsimp only
  conv_lhs => arg 1; arg 2; rw [entriesOf_eq_map]
  rw [List.filterMap_map]
  rfl

theorem partsOf_obj_members :
    (partsOf (.obj members)).members = members.map fun m => (m.1, ofJson m.2) := by
  rw [partsOf]
  dsimp only
  rw [entriesOf_eq_map, List.map_map]
  rfl

theorem keywordsOf_append :
    keywordsOf entries (members ++ more) = keywordsOf entries members ++ keywordsOf entries more :=
  List.filterMap_append

theorem keywordsOf_cons :
    keywordsOf entries ((name, value) :: members)
      = (Entry.keyword? entries ⟨name, value, partsOf value⟩).toList
        ++ keywordsOf entries members := by
  rw [keywordsOf, List.filterMap_cons]
  cases Entry.keyword? entries ⟨name, value, partsOf value⟩ <;> rfl

/-- A member that is null is not written. -/
theorem keywordsOf_withoutNulls_cons :
    keywordsOf entries (Json.withoutNulls ((name, value) :: members))
      = (if value = .null then [] else (Entry.keyword? entries ⟨name, value, partsOf value⟩).toList)
        ++ keywordsOf entries (Json.withoutNulls members) := by
  rw [Json.withoutNulls, List.filter_cons]
  by_cases h : value = .null
  · simp [h, Json.withoutNulls]
  · simp [h, keywordsOf_cons, Json.withoutNulls]

/-- A member that writes no keyword may be left out. -/
theorem keywordsOf_silent_cons (h : Entry.keyword? entries ⟨name, value, partsOf value⟩ = none) :
    keywordsOf entries (Json.withoutNulls ((name, value) :: members))
      = keywordsOf entries (Json.withoutNulls members) := by
  rw [keywordsOf_withoutNulls_cons, h]
  split <;> rfl

/-- The schema that asks for what the schema of a model of the name asks for. -/
def toModel (name : String) : Schema := .keywords [.reference (referenceStem ++ name)]

theorem ofJson_reference : ofJson (reference name) = toModel name := by
  rw [reference, ofJson_obj]
  rfl

/-- What a member writes is the same with definitions behind the members that it is among. -/
theorem keyword?_append_definitions {e last : Entry} (h : last.name = "definitions") :
    Entry.keyword? (entries ++ [last]) e = Entry.keyword? entries e := by
  have hchecks : checksAdditional (entries ++ [last]) = checksAdditional entries := by
    simp [checksAdditional, h]
  have hfind : (entries ++ [last]).find? (·.name = "properties")
      = entries.find? (·.name = "properties") := by
    simp [List.find?_append, h]
  unfold Entry.keyword? propertiesKeyword? additionalKeyword?
  rw [hchecks, hfind]

/-- The definitions beside a schema are of no consequence to it. -/
theorem ofJson_put_definitions (h : "definitions" ∉ Keyed.keys members) (value : Json) :
    ofJson (.obj (Keyed.put "definitions" value members)) = ofJson (.obj members) := by
  rw [Keyed.put_of_not_mem h, ofJson_obj, ofJson_obj, entriesOf_eq_map, entriesOf_eq_map,
    List.map_append, List.map_singleton, keywordsOf_append, keywordsOf_cons]
  have hlast (entries : List Entry) :
      (Entry.keyword? entries ⟨"definitions", value, partsOf value⟩).toList = [] := rfl
  rw [hlast]
  show Schema.keywords (_ ++ ([] ++ [])) = _
  rw [List.append_nil, List.append_nil]
  congr 1
  exact List.filterMap_congr fun m _ => keyword?_append_definitions rfl

end Schema

namespace Field

variable {r : Registry} {field : Field} {out : Json}

/-- The keyword of the values that a field may have, if they are listed. -/
def choiceKeywords (field : Field) : List Keyword := (field.choices.map .choices).toList

theorem keywordsOf_annotations {entries : List Entry} :
    keywordsOf entries field.annotations = field.choiceKeywords := by
  rw [annotations, keywordsOf_silent_cons rfl, keywordsOf_silent_cons rfl,
    keywordsOf_silent_cons rfl, keywordsOf_silent_cons rfl, keywordsOf_silent_cons rfl,
    keywordsOf_withoutNulls_cons, choiceKeywords]
  cases field.choices <;> rfl

theorem exists_members_of_schema (h : field.schema r = .ok out) :
    ∃ members, out = .obj members := by
  cases hs : field.shape with
  | scalar kind =>
    cases field
    cases hs
    exact ⟨_, (Except.ok.inj h).symm⟩
  | list items least most unique =>
    rw [schema_list hs] at h
    obtain ⟨inner, -, h⟩ := bind_eq_ok.1 h
    exact ⟨_, (pure_eq_ok.1 h).symm⟩
  | nested target asList =>
    rw [schema_nested hs] at h
    obtain ⟨_, -, h⟩ := bind_eq_ok.1 h
    exact ⟨_, (pure_eq_ok.1 h).symm⟩
  | polymorph mapping =>
    rw [schema_polymorph hs] at h
    obtain ⟨ancestor, -, h⟩ := bind_eq_ok.1 h
    exact ⟨_, (pure_eq_ok.1 h).symm⟩

theorem schema_scalar {kind : Kind} (h : field.shape = .scalar kind) :
    field.schema r = .ok (.obj <| Json.withoutNulls [
      ("type", .str kind.schemaType.name),
      ("format", .ofString? kind.schemaFormat?)] ++ field.annotations) := by
  cases field
  cases h
  rfl

/-- The keywords of a field of a kind. -/
theorem ofJson_scalar {kind : Kind} (h : field.shape = .scalar kind)
    (hs : field.schema r = .ok out) :
    ofJson out = .keywords (.type kind.schemaType :: field.choiceKeywords) := by
  rw [schema_scalar h] at hs
  obtain rfl := Except.ok.inj hs
  rw [ofJson_obj, keywordsOf_append, keywordsOf_annotations, keywordsOf_withoutNulls_cons,
    keywordsOf_withoutNulls_cons]
  cases kind <;> rfl

/-- The keywords of bounds on the length of an array and of its items being different. -/
def itemKeywords (least most : Option UInt64) (unique : Bool) : List Keyword :=
  (least.map fun n => .leastItems n.toNat).toList
    ++ (most.map fun n => .mostItems n.toNat).toList ++ if unique then [.uniqueItems] else []

theorem boundKeyword_ofWord (keyword : Nat → Keyword) (n : UInt64) :
    boundKeyword keyword (.ofWord n) = keyword n.toNat := by
  have hn : n.toNat ≤ Number.largestCount := Nat.le_of_lt_succ n.toNat_lt
  simp [Json.ofWord, boundKeyword, Number.nearestCount?, Number.isInteger, Number.whole,
    Nat.min_eq_left hn]

theorem keywordsOf_bound {entries : List Entry} {name : String} {keyword : Nat → Keyword}
    (h : ∀ value parts, Entry.keyword? entries ⟨name, value, parts⟩
      = some (boundKeyword keyword value)) (bound : Option UInt64) (more : Members) :
    keywordsOf entries (Json.withoutNulls ((name, (bound.map .ofWord).getD .null) :: more))
      = (bound.map fun n => keyword n.toNat).toList
        ++ keywordsOf entries (Json.withoutNulls more) := by
  rw [keywordsOf_withoutNulls_cons, h]
  cases bound with
  | none => rfl
  | some n =>
    rw [Option.map_some, Option.map_some, Option.getD_some, boundKeyword_ofWord, if_neg nofun]

/-- The keywords of a list. -/
theorem ofJson_list {items : Field} {least most : Option UInt64} {unique : Bool}
    (h : field.shape = .list items least most unique) (hs : field.schema r = .ok out) :
    ∃ inner, items.schema r = .ok inner ∧ ofJson out = .keywords
      (.type .array :: .items (ofJson inner) :: itemKeywords least most unique
        ++ field.choiceKeywords) := by
  rw [schema_list h] at hs
  obtain ⟨inner, hinner, hs⟩ := bind_eq_ok.1 hs
  obtain rfl := pure_eq_ok.1 hs
  obtain ⟨members, rfl⟩ := exists_members_of_schema hinner
  refine ⟨_, hinner, ?_⟩
  rw [ofJson_obj, keywordsOf_append, keywordsOf_annotations, keywordsOf_withoutNulls_cons,
    keywordsOf_withoutNulls_cons, keywordsOf_bound (fun _ _ => rfl),
    keywordsOf_bound (fun _ _ => rfl), keywordsOf_withoutNulls_cons, itemKeywords]
  have hitems (entries : List Entry) :
      Entry.keyword? entries ⟨"items", .obj members, partsOf (.obj members)⟩
        = some (.items (ofJson (.obj members))) := rfl
  have hunique (entries : List Entry) :
      (if (if unique = true then Json.bool true else .null) = .null then []
        else (Entry.keyword? entries ⟨"uniqueItems", if unique = true then .bool true else .null,
          partsOf (if unique = true then .bool true else .null)⟩).toList)
        = if unique = true then [Keyword.uniqueItems] else [] := by
    cases unique <;> rfl
  rw [hitems, hunique]
  show Schema.keywords (([.type .array] ++ ([.items _] ++ (_ ++ (_ ++ (_ ++ []))))) ++ _) = _
  simp

/-- The keywords of a field that refers to a model. -/
def referringKeywords (field : Field) (name : String) (asList : Bool) : List Keyword :=
  (if asList then [.type .array, .items (toModel name)]
    else if field.annotations.isEmpty then [.reference (referenceStem ++ name)]
    else [.allOf [toModel name]]) ++ field.choiceKeywords

theorem ofJson_referring {name : String} {asList : Bool} :
    ofJson (.obj (referring name asList field.annotations))
      = .keywords (field.referringKeywords name asList) := by
  rw [ofJson_obj, referring, referringKeywords]
  cases asList with
  | true =>
    rw [if_pos rfl, if_pos rfl, keywordsOf_append, keywordsOf_annotations, keywordsOf_cons,
      keywordsOf_cons]
    rw [← ofJson_reference]
    rfl
  | false =>
    rw [if_neg Bool.false_ne_true, if_neg Bool.false_ne_true]
    split
    · rename_i hempty
      rw [← @keywordsOf_annotations field [], List.isEmpty_iff.1 hempty]
      rfl
    · have hall (entries : List Entry) :
          Entry.keyword? entries ⟨"allOf", .arr [reference name], partsOf (.arr [reference name])⟩
            = some (.allOf [ofJson (reference name)]) := rfl
      rw [keywordsOf_cons, keywordsOf_annotations, hall, ofJson_reference]
      rfl

end Field

namespace Model

variable {r : Registry} {model : Model} {own out : Json}

/-- The names of the required fields, ascending. -/
def requiredNames (model : Model) : List String :=
  ascendingNames ((model.fields.filter fun f => f.2.required).map (·.1))

theorem ascending_requiredNames : model.requiredNames.Pairwise (· < ·) :=
  List.pairwise_map.2 (NameMap.ofPairs _).ascending

/-- The keywords of a model's own fields, under whose names there are the given schemas. -/
def ownKeywords (model : Model) (members : List (String × Schema)) : List Keyword :=
  .type .object :: (if model.strict then [] else [.properties members])
    ++ (if model.requiredNames.isEmpty then [] else [.required model.requiredNames])
    ++ if model.strict then [.closed members] else []

/-- The schemas of a model's own fields, in order. -/
def Properties (r : Registry) (model : Model) (properties : Members) : Prop :=
  Keyed.Related (fun _ field out => field.schema r = .ok out) model.fields properties

/-- The members of the own schema of a model, under whose fields' names there are given schemas. -/
def ownMembers (model : Model) (properties : Members) : Members :=
  let discriminator := ((model.fields.filter (fun f => f.2.discriminator)).map (·.1)).getLast?
  Json.withoutNulls [
    ("type", .str SchemaType.object.name),
    ("description", .ofString? model.description),
    ("properties", .obj properties),
    ("required", if model.requiredNames.isEmpty then .null else .strings model.requiredNames),
    ("discriminator", .ofString? discriminator),
    ("x-mask", .ofString? (model.mask.map Mask.canonical)),
    ("additionalProperties", if model.strict then .bool false else .null)]

theorem ownSchema_eq_ok (h : model.ownSchema r = .ok own) :
    ∃ properties, model.Properties r properties ∧
      own = .obj (model.ownMembers (Keyed.ofPairs properties)) := by
  obtain ⟨properties, hp, h⟩ := bind_eq_ok.1 h
  refine ⟨properties, (mapM_eq_ok.1 hp).imp fun a b h => ?_, (pure_eq_ok.1 h).symm⟩
  obtain ⟨out, hout, h⟩ := bind_eq_ok.1 h
  obtain rfl := pure_eq_ok.1 h
  exact ⟨rfl, hout⟩

theorem requiredKeyword_strings (names : List String) :
    requiredKeyword (.strings names) = .required names := by
  have hnone : (names.map Json.str).find? (·.str?.isNone) = none := by
    simp [Json.str?]
  rw [Json.strings, requiredKeyword, hnone, List.filterMap_map]
  exact congrArg Keyword.required List.filterMap_some

/-- The keywords of a model's own fields. -/
theorem ofJson_ownMembers (properties : Members) :
    ofJson (.obj (model.ownMembers properties))
      = .keywords (model.ownKeywords (properties.map fun m => (m.1, ofJson m.2))) := by
  rw [ofJson_obj, ownKeywords, ← partsOf_obj_members]
  generalize hentries : entriesOf (model.ownMembers properties) = entries
  have hchecks : checksAdditional entries = model.strict := by
    rw [← hentries, entriesOf_eq_map, checksAdditional, List.any_map, ownMembers, Json.withoutNulls,
      List.any_filter]
    cases model.strict <;> simp
  have hfind : entries.find? (·.name = "properties")
      = some ⟨"properties", .obj properties, partsOf (.obj properties)⟩ := by
    rw [← hentries, entriesOf_eq_map, List.find?_map, ownMembers, Json.withoutNulls,
      List.find?_filter]
    simp
  have hproperties :
      Entry.keyword? entries ⟨"properties", .obj properties, partsOf (.obj properties)⟩
      = if model.strict then none else some (.properties (partsOf (.obj properties)).members) := by
    rw [← hchecks]
    rfl
  have hclosed : Entry.keyword? entries ⟨"additionalProperties", .bool false, partsOf (.bool false)⟩
      = some (.closed (partsOf (.obj properties)).members) := by
    show additionalKeyword? entries (.bool false) _ = _
    unfold additionalKeyword?
    rw [hfind]
  rw [ownMembers, keywordsOf_withoutNulls_cons, keywordsOf_silent_cons rfl,
    keywordsOf_withoutNulls_cons, hproperties, keywordsOf_withoutNulls_cons,
    keywordsOf_silent_cons rfl, keywordsOf_silent_cons rfl, keywordsOf_withoutNulls_cons]
  generalize hnames : model.requiredNames = names
  have hrequired : Entry.keyword? entries ⟨"required", .strings names, partsOf (.strings names)⟩
      = some (.required names) := congrArg some (requiredKeyword_strings names)
  have hstrings : Json.strings names ≠ .null := nofun
  cases hempty : names.isEmpty <;> cases hstrict : model.strict <;>
    simp [hrequired, hclosed, hstrings] <;> rfl

/-- The members of the schema of a model whose own schema has the given members. -/
def schemaMembers (model : Model) (own : Members) : Members :=
  if model.parents.isEmpty then own
  else [("allOf", .arr (model.parents.map reference ++ [.obj own]))]

/-- What the schema of a model is written from. -/
theorem schema_eq_ofPairs (h : model.schema r = .ok out) :
    ∃ properties, model.Properties r properties ∧
      out = .obj (model.schemaMembers (model.ownMembers (Keyed.ofPairs properties))) := by
  obtain ⟨own, hown, h⟩ := bind_eq_ok.1 h
  obtain ⟨properties, hrel, rfl⟩ := ownSchema_eq_ok hown
  refine ⟨properties, hrel, ?_⟩
  rw [schemaMembers]
  split at h
  · rename_i hempty
    rw [if_pos hempty, pure_eq_ok.1 h]
  · rename_i hempty
    obtain ⟨parents, hparents, h⟩ := bind_eq_ok.1 h
    have hmap : model.parents.map reference = parents := by
      refine eq_map_of_mapM hparents fun parent _ out hout => ?_
      obtain ⟨_, -, hout⟩ := bind_eq_ok.1 hout
      exact pure_eq_ok.1 hout
    rw [if_neg hempty, ← pure_eq_ok.1 h, hmap]

/-- What the schema of a model is written from, if its fields have distinct names. -/
theorem schema_eq_ok (hn : (Keyed.keys model.fields).Nodup) (h : model.schema r = .ok out) :
    ∃ properties, model.Properties r properties ∧
      out = .obj (model.schemaMembers (model.ownMembers properties)) := by
  obtain ⟨properties, hrel, rfl⟩ := schema_eq_ofPairs h
  exact ⟨properties, hrel, by rw [Keyed.ofPairs_eq_self (hrel.keys_eq ▸ hn)]⟩

/-- The schema of a model under whose fields' names there are the given schemas. -/
def compiled (model : Model) (members : List (String × Schema)) : Schema :=
  .keywords <|
    if model.parents.isEmpty then model.ownKeywords members
    else [.allOf (model.parents.map toModel ++ [.keywords (model.ownKeywords members)])]

theorem ofJson_schemaMembers (properties : Members) :
    ofJson (.obj (model.schemaMembers (model.ownMembers properties)))
      = model.compiled (properties.map fun m => (m.1, ofJson m.2)) := by
  rw [schemaMembers, compiled]
  split
  · exact ofJson_ownMembers properties
  · rw [ofJson_obj, keywordsOf_cons]
    show Schema.keywords ([.allOf (schemasOf _)] ++ []) = _
    rw [schemasOf_eq_map, List.map_append, List.map_map, List.map_singleton, ofJson_ownMembers]
    have hmap : ofJson ∘ reference = toModel := funext fun _ => ofJson_reference
    rw [hmap, List.append_nil]

end Model

end FieldMask
