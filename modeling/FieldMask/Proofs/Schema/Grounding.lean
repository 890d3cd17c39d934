import FieldMask.Proofs.Model.Lineage
import FieldMask.Proofs.Schema.Checking
import FieldMask.Proofs.Schema.Compiled
import FieldMask.Proofs.Schema.Reference

/-!
# Documents of models are grounded

In a document that holds the definitions of a registry, the reference to a registered model leads to
the schema of that model (`resolve_reference`). References lead on from there to the parents of the
model alone, which rank below it; so the document is grounded (`exists_grounded`), and the schemas
of models and fields are legible in it.
-/

namespace FieldMask

open Schema

/-! ## Texts of references -/

namespace Json

variable {members : Members} {items : List Json} {name text : String} {x : Json}

theorem subset_referenceTexts_arr (h : x ∈ items) :
    x.referenceTexts ⊆ (Json.arr items).referenceTexts := by
  show _ ⊆ referenceTextsOfItems items
  induction items with
  | nil => cases h
  | cons y rest ih =>
    rw [referenceTextsOfItems]
    rcases List.mem_cons.1 h with rfl | h
    · exact List.subset_append_left _ _
    · exact List.subset_append_of_subset_right _ (ih h)

theorem subset_referenceTexts_obj (h : (name, x) ∈ members) :
    x.referenceTexts ⊆ (Json.obj members).referenceTexts := by
  show _ ⊆ referenceTextsOfMembers members
  induction members with
  | nil => cases h
  | cons m rest ih =>
    obtain ⟨key, y⟩ := m
    rw [referenceTextsOfMembers]
    rcases List.mem_cons.1 h with h | h
    · obtain ⟨rfl, rfl⟩ := Prod.mk.inj h
      exact List.subset_append_of_subset_left _ (List.subset_append_right _ _)
    · exact List.subset_append_of_subset_right _ (ih h)

theorem mem_referenceTexts (h : ("$ref", .str text) ∈ members) :
    text ∈ (Json.obj members).referenceTexts := by
  show _ ∈ referenceTextsOfMembers members
  induction members with
  | nil => cases h
  | cons m rest ih =>
    obtain ⟨key, y⟩ := m
    rw [referenceTextsOfMembers]
    rcases List.mem_cons.1 h with h | h
    · obtain ⟨rfl, rfl⟩ := Prod.mk.inj h
      simp [Json.str?]
    · exact List.mem_append_right _ (ih h)

theorem subset_referenceTexts_append {more : Members} :
    (Json.obj members).referenceTexts ⊆ (Json.obj (members ++ more)).referenceTexts := by
  show referenceTextsOfMembers members ⊆ referenceTextsOfMembers (members ++ more)
  induction members with
  | nil => exact List.nil_subset _
  | cons m rest ih =>
    obtain ⟨key, y⟩ := m
    rw [List.cons_append, referenceTextsOfMembers, referenceTextsOfMembers]
    refine List.append_subset.2 ⟨List.subset_append_left _ _, ?_⟩
    exact List.subset_append_of_subset_right _ ih

theorem mem_referenceTexts_reference : referenceStem ++ name ∈ (reference name).referenceTexts :=
  mem_referenceTexts List.mem_cons_self

end Json

/-! ## Legible schemas -/

/-- Everything that the schema of a model is written from is there. -/
structure Model.Fits (r : Registry) (model : Model) : Prop where
  nodup : (Keyed.keys model.fields).Nodup
  plain : ∀ e ∈ model.fields, e.2.Plain
  sound : ∀ e ∈ model.fields, e.2.Sound r
  parents : ∀ parent ∈ model.parents, ∃ m, r.find? parent = some m

section Legible

variable {r : Registry} {known : String → Prop} {field : Field} {model : Model} {out : Json}

/-- The references to registered models in a value are known. -/
def Registry.Knows (r : Registry) (known : String → Prop) (v : Json) : Prop :=
  ∀ name model, r.find? name = some model → referenceStem ++ name ∈ v.referenceTexts →
    known (referenceStem ++ name)

theorem legible_toModel {name : String} (h : known (referenceStem ++ name)) :
    (toModel name).Legible known :=
  .keywords (List.forall_mem_singleton.2 (.reference h))

theorem Field.legible_choiceKeywords : ∀ k ∈ field.choiceKeywords, k.Legible known := by
  intro k hk
  rw [choiceKeywords, Option.mem_toList, Option.map_eq_some_iff] at hk
  obtain ⟨values, -, rfl⟩ := hk
  exact .choices values

theorem Field.legible_referring {name : String} {asList : Bool}
    (h : known (referenceStem ++ name)) :
    ∀ k ∈ field.referringKeywords name asList, k.Legible known := by
  rw [referringKeywords, List.forall_mem_append]
  refine ⟨?_, legible_choiceKeywords⟩
  split
  · exact List.forall_mem_cons.2 ⟨.type _, List.forall_mem_singleton.2 (.items (legible_toModel h))⟩
  · split
    · exact List.forall_mem_singleton.2 (.reference h)
    · refine List.forall_mem_singleton.2 (.allOf ?_)
      exact List.forall_mem_singleton.2 (legible_toModel h)

theorem Field.mem_referenceTexts_referring {name : String} {asList : Bool} :
    referenceStem ++ name ∈
      (Json.obj (referring name asList field.annotations)).referenceTexts := by
  unfold referring
  split
  · have hmem : ("items", reference name) ∈
        [("type", .str SchemaType.array.name), ("items", reference name)] ++ field.annotations :=
      List.mem_cons_of_mem _ List.mem_cons_self
    exact Json.subset_referenceTexts_obj hmem Json.mem_referenceTexts_reference
  · split
    · exact Json.mem_referenceTexts List.mem_cons_self
    · refine Json.subset_referenceTexts_obj List.mem_cons_self ?_
      exact Json.subset_referenceTexts_arr List.mem_cons_self Json.mem_referenceTexts_reference

theorem Field.legible_itemKeywords {least most : Option UInt64} {unique : Bool} :
    ∀ k ∈ itemKeywords least most unique, k.Legible known := by
  rw [itemKeywords, List.forall_mem_append, List.forall_mem_append]
  refine ⟨⟨?_, ?_⟩, ?_⟩
  · cases least <;> simp [Keyword.Legible.leastItems]
  · cases most <;> simp [Keyword.Legible.mostItems]
  · cases unique <;> simp [Keyword.Legible.uniqueItems]

/-- The schema of a sound field is legible where the references in it are known. -/
theorem Field.legible_schema (hp : field.Plain) (hf : field.Sound r)
    (h : field.schema r = .ok out) (hk : r.Knows known out) : (ofJson out).Legible known := by
  induction hp generalizing out with
  | scalar hs =>
    rw [ofJson_scalar hs h]
    exact .keywords (List.forall_mem_cons.2 ⟨.type _, legible_choiceKeywords⟩)
  | list hs hi ih =>
    obtain ⟨inner, hinner, hout⟩ := ofJson_list hs h
    have hsub : inner.referenceTexts ⊆ out.referenceTexts := by
      rw [schema_list hs, hinner] at h
      obtain rfl := pure_eq_ok.1 h
      obtain ⟨members, rfl⟩ := exists_members_of_schema hinner
      exact @Json.subset_referenceTexts_obj _ "items" _ (by simp [Json.withoutNulls])
    have hitems := ih (hf.items hs) hinner fun name m hm hmem => hk name m hm (hsub hmem)
    rw [hout]
    refine .keywords (List.forall_mem_append.2 ⟨?_, legible_choiceKeywords⟩)
    refine List.forall_mem_cons.2 ⟨.type _, List.forall_mem_cons.2 ⟨.items hitems, ?_⟩⟩
    exact legible_itemKeywords
  | named hs =>
    obtain ⟨m, hm⟩ := hf.target hs
    rw [schema_nested hs, Target.name, Registry.lookup_eq_ok.2 hm] at h
    obtain rfl := Except.ok.inj h
    rw [ofJson_referring]
    exact .keywords (legible_referring (hk _ m hm mem_referenceTexts_referring))
  | polymorph hs =>
    obtain ⟨⟨ancestor, ha⟩, -⟩ := hf.mapping hs
    obtain ⟨name, hm⟩ := Registry.mem_of_commonAncestor ha
    rw [schema_polymorph hs, ha] at h
    obtain rfl := Except.ok.inj h
    rw [ofJson_referring, Registry.name_of_find? hm]
    rw [Registry.name_of_find? hm] at hk
    exact .keywords (legible_referring (hk _ ancestor hm mem_referenceTexts_referring))

namespace Model

theorem legible_ownKeywords {members : List (String × Schema)}
    (h : ∀ e ∈ members, e.2.Legible known) : ∀ k ∈ model.ownKeywords members, k.Legible known := by
  rw [ownKeywords, List.forall_mem_append, List.forall_mem_append, List.forall_mem_cons]
  refine ⟨⟨⟨.type _, ?_⟩, ?_⟩, ?_⟩
  · split
    · exact List.forall_mem_nil _
    · exact List.forall_mem_singleton.2 (.properties h)
  · split
    · exact List.forall_mem_nil _
    · exact List.forall_mem_singleton.2 (.required _)
  · split
    · exact List.forall_mem_singleton.2 (.closed h)
    · exact List.forall_mem_nil _

theorem legible_compiled {members : List (String × Schema)}
    (h : ∀ e ∈ members, e.2.Legible known)
    (hp : ∀ parent ∈ model.parents, known (referenceStem ++ parent)) :
    (model.compiled members).Legible known := by
  rw [compiled]
  split
  · exact .keywords (legible_ownKeywords h)
  · refine .keywords (List.forall_mem_singleton.2 (.allOf ?_))
    rw [List.forall_mem_append, List.forall_mem_map, List.forall_mem_singleton]
    exact ⟨fun parent hmem => legible_toModel (hp parent hmem), .keywords (legible_ownKeywords h)⟩

theorem subset_referenceTexts_own {properties : Members} :
    (Json.obj (model.ownMembers properties)).referenceTexts
      ⊆ (Json.obj (model.schemaMembers (model.ownMembers properties))).referenceTexts := by
  rw [schemaMembers]
  split
  · exact List.Subset.refl _
  · refine List.Subset.trans ?_ (Json.subset_referenceTexts_obj List.mem_cons_self)
    exact Json.subset_referenceTexts_arr (List.mem_append_right _ List.mem_cons_self)

theorem mem_referenceTexts_parent {properties : Members} {parent : String}
    (h : parent ∈ model.parents) :
    referenceStem ++ parent
      ∈ (Json.obj (model.schemaMembers (model.ownMembers properties))).referenceTexts := by
  have hne : ¬model.parents.isEmpty = true := fun hempty =>
    List.not_mem_nil (List.isEmpty_iff.1 hempty ▸ h)
  rw [schemaMembers, if_neg hne]
  refine Json.subset_referenceTexts_obj List.mem_cons_self ?_
  refine Json.subset_referenceTexts_arr ?_ Json.mem_referenceTexts_reference
  exact List.mem_append_left _ (List.mem_map_of_mem h)

/-- The schema of a model is legible where the references in it are known. -/
theorem Fits.legible (hm : model.Fits r) {properties : Members}
    (hrel : model.Properties r properties)
    (hk : r.Knows known (.obj (model.schemaMembers (model.ownMembers properties)))) :
    (model.compiled (properties.map fun m => (m.1, ofJson m.2))).Legible known := by
  refine legible_compiled ?_ fun parent hmem => ?_
  · rw [List.forall_mem_map]
    intro m hmem
    obtain ⟨e, he, -, hschema⟩ := exists_left_of_mem hrel hmem
    refine Field.legible_schema (hm.plain e he) (hm.sound e he) hschema ?_
    intro name target ht htext
    refine hk name target ht (subset_referenceTexts_own ?_)
    have hproperties : ("properties", Json.obj properties) ∈ model.ownMembers properties := by
      simp [ownMembers, Json.withoutNulls]
    exact Json.subset_referenceTexts_obj hproperties (Json.subset_referenceTexts_obj hmem htext)
  · obtain ⟨m, hparent⟩ := hm.parents parent hmem
    exact hk parent m hparent (mem_referenceTexts_parent hmem)

end Model

end Legible

/-! ## References that lead on -/

namespace Model

variable {model : Model} {members : List (String × Schema)} {properties : Members}

theorem leadsOn_ownKeywords : ∀ k ∈ model.ownKeywords members, k.leadsOn = false := by
  rw [ownKeywords, List.forall_mem_append, List.forall_mem_append, List.forall_mem_cons]
  refine ⟨⟨⟨rfl, ?_⟩, ?_⟩, ?_⟩ <;> split <;> simp [Keyword.leadsOn]

theorem not_refers_ownKeywords {text : String} :
    ¬Refers (.keywords (model.ownKeywords members)) text := by
  intro h
  cases h with
  | own hl => cases leadsOn_ownKeywords _ hl
  | allOf hl _ _ => cases leadsOn_ownKeywords _ hl

/-- The references that lead on from the schema of a model are those to its parents. -/
theorem exists_parent_of_refers {text : String} (h : (model.compiled members).Refers text) :
    ∃ parent ∈ model.parents, text = referenceStem ++ parent := by
  rw [compiled] at h
  split at h
  · exact (not_refers_ownKeywords h).elim
  · cases h with
    | own hl => cases List.mem_singleton.1 hl
    | allOf hl hs h =>
      obtain rfl := Keyword.allOf.inj (List.mem_singleton.1 hl)
      rcases List.mem_append.1 hs with hs | hs
      · obtain ⟨parent, hmem, rfl⟩ := List.mem_map.1 hs
        cases h with
        | own hl => exact ⟨parent, hmem, Keyword.reference.inj (List.mem_singleton.1 hl)⟩
        | allOf hl _ _ => cases List.mem_singleton.1 hl
      · obtain rfl := List.mem_singleton.1 hs
        exact (not_refers_ownKeywords h).elim

theorem keys_schemaMembers_subset :
    Keyed.keys (model.schemaMembers (model.ownMembers properties))
      ⊆ ["allOf", "type", "description", "properties", "required", "discriminator", "x-mask",
        "additionalProperties"] := by
  have hown : Keyed.keys (model.ownMembers properties)
      ⊆ ["type", "description", "properties", "required", "discriminator", "x-mask",
        "additionalProperties"] :=
    List.Sublist.subset (List.filter_sublist.map _)
  rw [schemaMembers]
  split
  · exact List.Subset.trans hown (List.subset_cons_self _ _)
  · simp

end Model

/-! ## Documents -/

namespace Registry

variable {r : Registry} {name : String} {model : Model} {definitions : Members} {document : Json}

/-- The registry is in order and checked, its fields are plain and so are its names. -/
structure Compilable (r : Registry) : Prop where
  plain : r.Plain
  checked : r.check = .ok ()
  orderly : r.Orderly
  named : r.isPlainlyNamed = true

theorem compilable_of_load {source : Json} (h : Registry.load source = .ok r)
    (hn : r.isPlainlyNamed = true) : r.Compilable where
  plain := (of_load h).1
  checked := (of_load h).2
  orderly := orderly_of_load h
  named := hn

/-- Everything that the schema of a registered model is written from is there. -/
theorem Compilable.fits (hr : r.Compilable) (hm : r.find? name = some model) : model.Fits r where
  nodup := hr.orderly.nodup hm
  plain := hr.plain name model hm
  sound := sound_of_mem hr.plain hr.checked hm
  parents := by
    obtain ⟨rank, hrank⟩ := hr.orderly.ranked
    exact fun parent hmem => hrank.registered ⟨model, hm, hmem⟩

/-- The document holds the definitions of the registry. -/
def DefinedIn (r : Registry) (document : Json) : Prop :=
  ∃ definitions, r.definitions = .ok definitions ∧
    document.get? "definitions" = some (.obj definitions)

/-- The definitions are the schemas of the registered models, under their names. -/
theorem definitions_eq_ok (h : r.definitions = .ok definitions) :
    List.Forall₂ (fun (model : Model) d => d.1 = model.name ∧ model.schema r = .ok d.2)
      r.toList definitions := by
  obtain ⟨_, -, h⟩ := bind_eq_ok.1 h
  refine (mapM_eq_ok.1 h).imp fun model d hd => ?_
  obtain ⟨out, hout, hd⟩ := bind_eq_ok.1 hd
  obtain rfl := pure_eq_ok.1 hd
  exact ⟨rfl, hout⟩

theorem keys_definitions (h : r.definitions = .ok definitions) :
    Keyed.keys definitions = r.names := by
  have hnames : r.toList.map (·.name) = r.names := by
    rw [toList, NameMap.values, List.map_map, names, NameMap.names]
    exact List.map_congr_left fun e he => (r.named e he).symm
  have hrel := definitions_eq_ok h
  rw [← hnames]
  generalize r.toList = models at hrel
  clear h hnames
  induction hrel with
  | nil => rfl
  | cons h _ ih => rw [Keyed.keys_cons, List.map_cons, h.1, ih]

/-- Under the name of a registered model the definitions have its schema. -/
theorem lookup_definitions (hd : r.definitions = .ok definitions)
    (hm : r.find? name = some model) :
    ∃ out, model.schema r = .ok out ∧ definitions.lookup name = some out := by
  have hnodup : (Keyed.keys definitions).Nodup :=
    keys_definitions hd ▸ List.pairwise_map.2 (r.models.ascending.imp Std.ne_of_lt)
  obtain ⟨⟨key, out⟩, hmem, hkey, hout⟩ :=
    exists_right_of_mem (definitions_eq_ok hd) (mem_toList_of_find? hm)
  obtain rfl : key = name := hkey.trans (name_of_find? hm)
  exact ⟨out, hout, Keyed.lookup_of_mem hnodup hmem⟩

/-- The reference to a registered model leads to its schema, in the definitions. -/
theorem resolve_reference (hn : r.isPlainlyNamed = true) (hd : r.DefinedIn document)
    (hm : r.find? name = some model) :
    ∃ out, model.schema r = .ok out ∧
      Reference.resolve document (referenceStem ++ name) = .ok out ∧
      out.referenceTexts ⊆ document.referenceTexts := by
  obtain ⟨definitions, hdefinitions, hget⟩ := hd
  obtain ⟨out, hout, hlookup⟩ := lookup_definitions hdefinitions hm
  refine ⟨out, hout, ?_, ?_⟩
  · exact Reference.resolve_stem (isVerbatim_of_isPlainName (isPlainName_of_find? hn hm)) hget
      hlookup
  · cases document with
    | obj members =>
      refine List.Subset.trans ?_ (Json.subset_referenceTexts_obj (Keyed.mem_of_lookup hget))
      exact Json.subset_referenceTexts_obj (Keyed.mem_of_lookup hlookup)
    | _ => cases hget

/-- The text is one of the document's references to registered models. -/
def Mentions (r : Registry) (document : Json) (text : String) : Prop :=
  text ∈ document.referenceTexts ∧ ∃ name model, r.find? name = some model ∧
    text = referenceStem ++ name

/-- The document knows the references to registered models that are in it. -/
theorem knows_mentions {v : Json} (h : v.referenceTexts ⊆ document.referenceTexts) :
    r.Knows (r.Mentions document) v :=
  fun name model hm hmem => ⟨h hmem, name, model, hm, rfl⟩

/-- The name of the model that a reference to a model names. -/
def referredName (text : String) : String :=
  String.ofList (text.toList.drop referenceStem.toList.length)

theorem referredName_stem : referredName (referenceStem ++ name) = name := by
  rw [referredName, String.toList_append, List.drop_left, String.ofList_toList]

/-- **A document that holds the definitions of a registry is grounded.** -/
theorem exists_grounded (hr : r.Compilable) (hd : r.DefinedIn document) :
    ∃ rank, Grounded document (r.Mentions document) rank := by
  obtain ⟨rank, hrank⟩ := hr.orderly.ranked
  -- as many of the document's references as name models of a lower rank
  let below (text next : String) : Bool := rank (referredName next) < rank (referredName text)
  let count (text : String) : Nat := (document.referenceTexts.filter (below text)).length
  refine ⟨count, ?_, ?_⟩
  · rintro text ⟨-, name, model, hm, rfl⟩
    obtain ⟨out, hout, hresolve, hsub⟩ := resolve_reference hr.named hd hm
    obtain ⟨properties, hrel, rfl⟩ := Model.schema_eq_ok (hr.fits hm).nodup hout
    have hlegible := (hr.fits hm).legible hrel (knows_mentions hsub)
    rw [← Model.ofJson_schemaMembers] at hlegible
    refine ⟨_, hresolve, ?_, hlegible, fun next hnext => ?_⟩
    · have hnone : (Json.obj (model.schemaMembers (model.ownMembers properties))).get? "$ref"
          = none := by
        refine Keyed.lookup_eq_none_iff.2 fun hmem => ?_
        exact absurd (Model.keys_schemaMembers_subset hmem) (by decide)
      rw [Json.ownReference?, hnone]
      nofun
    · have hmem : next ∈ document.referenceTexts := (hlegible.known_of_refers hnext).1
      rw [Model.ofJson_schemaMembers] at hnext
      obtain ⟨parent, hparent, rfl⟩ := Model.exists_parent_of_refers hnext
      have hlt : rank parent < rank name := hrank.descends ⟨model, hm, hparent⟩
      have hbelow {text : String} : below (referenceStem ++ parent) text = true →
          below (referenceStem ++ name) text = true := by
        simp only [below, referredName_stem, decide_eq_true_eq]
        omega
      have hfilter : document.referenceTexts.filter (below (referenceStem ++ parent))
          = (document.referenceTexts.filter (below (referenceStem ++ name))).filter
            (below (referenceStem ++ parent)) := by
        rw [List.filter_filter]
        refine List.filter_congr fun text _ => ?_
        rw [Bool.eq_iff_iff, Bool.and_eq_true]
        exact ⟨fun h => ⟨h, hbelow h⟩, And.left⟩
      show (document.referenceTexts.filter _).length < _
      rw [hfilter]
      refine List.length_filter_lt_length_iff_exists.2 ⟨referenceStem ++ parent, ?_, ?_⟩
      · refine List.mem_filter.2 ⟨hmem, ?_⟩
        simpa [below, referredName_stem] using hlt
      · simp [below]
  · rintro text ⟨hmem, -⟩
    exact List.length_filter_lt_length_iff_exists.2 ⟨text, hmem, by simp [below]⟩

/-! ## The document of a model -/

/-- What the document of a model is put together from. -/
theorem modelDocument_eq_ok (hm : model.Fits r) (h : r.modelDocument model = .ok document) :
    ∃ properties definitions, model.Properties r properties ∧ r.definitions = .ok definitions ∧
      document = .obj (Keyed.put "definitions" (.obj definitions)
        (model.schemaMembers (model.ownMembers properties))) := by
  obtain ⟨schema, hschema, h⟩ := bind_eq_ok.1 h
  obtain ⟨properties, hrel, rfl⟩ := Model.schema_eq_ok hm.nodup hschema
  obtain ⟨definitions, hdefinitions, h⟩ := bind_eq_ok.1 h
  exact ⟨properties, definitions, hrel, hdefinitions, (pure_eq_ok.1 h).symm⟩

/-- The document of a model defines the registered models and asks for what its schema asks. -/
theorem DefinedIn.of_modelDocument (hm : model.Fits r)
    (h : r.modelDocument model = .ok document) :
    r.DefinedIn document ∧ ∃ properties, model.Properties r properties ∧
      ofJson document = model.compiled (properties.map fun m => (m.1, ofJson m.2)) ∧
      (ofJson document).Legible (r.Mentions document) := by
  obtain ⟨properties, definitions, hrel, hdefinitions, rfl⟩ := modelDocument_eq_ok hm h
  have hnew : "definitions" ∉ Keyed.keys (model.schemaMembers (model.ownMembers properties)) :=
    fun hmem => absurd (Model.keys_schemaMembers_subset hmem) (by decide)
  have hsub : (Json.obj (model.schemaMembers (model.ownMembers properties))).referenceTexts
      ⊆ (Json.obj (Keyed.put "definitions" (.obj definitions)
        (model.schemaMembers (model.ownMembers properties)))).referenceTexts := by
    rw [Keyed.put_of_not_mem hnew]
    exact Json.subset_referenceTexts_append
  have heq := ofJson_put_definitions hnew (.obj definitions)
  rw [Model.ofJson_schemaMembers] at heq
  refine ⟨⟨definitions, hdefinitions, ?_⟩, properties, hrel, heq, ?_⟩
  · rw [Json.get?, Keyed.lookup_put, if_pos rfl]
  · rw [heq]
    exact hm.legible hrel (knows_mentions hsub)

end Registry

end FieldMask
