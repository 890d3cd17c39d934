import FieldMask.Proofs.Schema.Grounding

/-!
# Documents of models are well-formed

Every keyword that the schema of a model is written with has a value of the prescribed form, and all
references begin with the mark of a fragment. So nothing is wrong with the document of a model
(`proper_modelDocument`), and checking a value against it is to follow its rules.
-/

namespace FieldMask

namespace Json

variable {members : Members} {items : List Json} {name text : String} {v : Json}

/-! ## Proper schemas -/

/-- The text of a reference begins with the mark of a fragment. -/
def IsLocal (text : String) : Prop := text.toList.head? = some '#'

/-- Nothing keeps the value from being a schema, and its references stay within the document. -/
structure Proper (v : Json) : Prop where
  wellformed : v.schemaViolation? = none
  within : ∀ text ∈ v.referenceLevels.flatten, IsLocal text

/-- A keyword of the name may have the value, and the references in it stay within the document. -/
structure ProperMember (name : String) (v : Json) : Prop where
  wellformed : keywordViolation? name v = none
  within : ∀ text ∈ (levelsOfMember name v).flatten, IsLocal text

theorem mem_flatten_joinLevels {as bs : List (List String)} :
    text ∈ (joinLevels as bs).flatten ↔ text ∈ as.flatten ∨ text ∈ bs.flatten := by
  induction as generalizing bs with
  | nil =>
    have hmap : bs.map (fun b => ([] : List String) ++ b) = bs := by simp
    cases bs <;> simp [joinLevels]
  | cons a as ih =>
    cases bs with
    | nil => simp [joinLevels]
    | cons b bs =>
      have hcons : joinLevels (a :: as) (b :: bs) = (a ++ b) :: joinLevels as bs := rfl
      rw [hcons, List.flatten_cons, List.flatten_cons, List.flatten_cons, List.mem_append, ih]
      simp only [List.mem_append]
      tauto

theorem within_levelsOfMembers (h : ∀ m ∈ members, ProperMember m.1 m.2) :
    ∀ text ∈ (levelsOfMembers members).flatten, IsLocal text := by
  induction members with
  | nil => simp [levelsOfMembers]
  | cons m rest ih =>
    obtain ⟨hm, hrest⟩ := List.forall_mem_cons.1 h
    intro text ht
    rw [levelsOfMembers, mem_flatten_joinLevels] at ht
    exact ht.elim (hm.within text) (ih hrest text)

theorem memberViolations_eq_nil (h : ∀ m ∈ members, ProperMember m.1 m.2) :
    memberViolations members = [] := by
  induction members with
  | nil => rfl
  | cons m rest ih =>
    obtain ⟨hm, hrest⟩ := List.forall_mem_cons.1 h
    rw [memberViolations, hm.wellformed, ih hrest]
    rfl

theorem firstViolation?_nil : firstViolation? [] = none := by
  simp [firstViolation?]

/-- An object of proper keywords is a proper schema. -/
theorem proper_obj (h : ∀ m ∈ members, ProperMember m.1 m.2) : (Json.obj members).Proper where
  wellformed := by
    rw [schemaViolation?, memberViolations_eq_nil h, firstViolation?_nil]
  within := within_levelsOfMembers h

/-! ## Proper keywords -/

theorem properMember_reference (h : IsLocal text) : ProperMember "$ref" (.str text) where
  wellformed := rfl
  within := by
    show ∀ t ∈ [[text]].flatten, IsLocal t
    simpa using h

theorem properMember_items (h : ∀ m ∈ members, ProperMember m.1 m.2) :
    ProperMember "items" (.obj members) where
  wellformed := by
    show (none : Option Violation).or (firstViolation? (memberViolations members)) = none
    rw [memberViolations_eq_nil h, firstViolation?_nil]
    rfl
  within := by
    show ∀ t ∈ ([] :: levelsOfMembers members).flatten, IsLocal t
    simpa using within_levelsOfMembers h

theorem properMember_allOf (hne : items ≠ []) (h : ∀ x ∈ items, x.Proper) :
    ProperMember "allOf" (.arr items) where
  wellformed := by
    have hplain : plainViolation? "allOf" (.arr items) = none := by
      show (if some items = some [] then some _ else none) = none
      rw [if_neg fun heq => hne (Option.some.inj heq)]
    have hitems : itemViolation? items = none := by
      clear hne hplain
      induction items with
      | nil => rfl
      | cons x rest ih =>
        obtain ⟨hx, hrest⟩ := List.forall_mem_cons.1 h
        rw [itemViolation?, hx.wellformed, ih hrest]
        rfl
    rw [keywordViolation?, hplain, if_pos rfl, hitems]
    rfl
  within := by
    show ∀ t ∈ ([] :: levelsOfSchemas items).flatten, IsLocal t
    rw [List.flatten_cons, List.nil_append]
    clear hne
    induction items with
    | nil => simp [levelsOfSchemas]
    | cons x rest ih =>
      obtain ⟨hx, hrest⟩ := List.forall_mem_cons.1 h
      intro text ht
      rw [levelsOfSchemas, mem_flatten_joinLevels] at ht
      exact ht.elim (hx.within text) (ih hrest text)

/-- Named schemas, of properties or definitions. -/
theorem properMember_named (hname : name = "properties" ∨ name = "definitions")
    (h : ∀ m ∈ members, m.2.Proper) : ProperMember name (.obj members) where
  wellformed := by
    have hnamed : namedViolation? members = none := by
      induction members with
      | nil => rfl
      | cons m rest ih =>
        obtain ⟨hm, hrest⟩ := List.forall_mem_cons.1 h
        rw [namedViolation?, hm.wellformed, ih hrest]
        rfl
    rcases hname with rfl | rfl
    · exact hnamed
    · exact hnamed
  within := by
    have hlevels : ∀ text ∈ (levelsOfNamed members).flatten, IsLocal text := by
      induction members with
      | nil => simp [levelsOfNamed]
      | cons m rest ih =>
        obtain ⟨hm, hrest⟩ := List.forall_mem_cons.1 h
        intro text ht
        rw [levelsOfNamed, mem_flatten_joinLevels] at ht
        exact ht.elim (hm.within text) (ih hrest text)
    rcases hname with rfl | rfl
    · show ∀ t ∈ ([] :: levelsOfNamed members).flatten, IsLocal t
      simpa using hlevels
    · show ∀ t ∈ ([] :: levelsOfNamed members).flatten, IsLocal t
      simpa using hlevels

/-- A keyword without schemas in it. -/
theorem properMember_plain
    (hname : name ∉ ["$ref", "items", "additionalProperties", "properties", "allOf", "definitions"])
    (h : plainViolation? name v = none) : ProperMember name v where
  wellformed := by
    simp only [List.mem_cons, not_or] at hname
    obtain ⟨-, hitems, hadditional, hproperties, hall, hdefinitions, -⟩ := hname
    cases v <;> simp [keywordViolation?, *]
  within := by
    simp only [List.mem_cons, not_or] at hname
    obtain ⟨href, hitems, hadditional, hproperties, hall, hdefinitions, -⟩ := hname
    cases v <;> simp [levelsOfMember, *]

theorem properMember_closed : ProperMember "additionalProperties" (.bool false) where
  wellformed := rfl
  within := List.forall_mem_nil _

/-! ## Values that keywords may have -/

theorem forall_mem_withoutNulls {P : String × Json → Prop} (h : ∀ m ∈ members, m.2 ≠ .null → P m) :
    ∀ m ∈ withoutNulls members, P m := by
  intro m hm
  obtain ⟨hmem, hne⟩ := List.mem_filter.1 hm
  exact h m hmem (by simpa using hne)

theorem properMember_ofString? {s : Option String}
    (hname : name ∈ ["title", "description", "format"]) (h : ofString? s ≠ .null) :
    ProperMember name (ofString? s) := by
  cases s with
  | none => exact absurd rfl h
  | some s =>
    simp only [List.mem_cons, List.not_mem_nil, or_false] at hname
    rcases hname with rfl | rfl | rfl <;> exact properMember_plain (by decide) rfl

theorem properMember_type (t : SchemaType) : ProperMember "type" (.str t.name) := by
  refine properMember_plain (by decide) ?_
  cases t <;> rfl

theorem properMember_count (hname : name = "minItems" ∨ name = "maxItems") {bound : Option UInt64}
    (h : (bound.map ofWord).getD .null ≠ .null) :
    ProperMember name ((bound.map ofWord).getD .null) := by
  cases bound with
  | none => exact absurd rfl h
  | some n =>
    have hcount : countViolation? (ofWord n) = none := by
      have hnat : ¬(n.toNat : Int) < 0 := by omega
      simp [ofWord, countViolation?, Number.isInteger, Number.whole, hnat]
    rcases hname with rfl | rfl <;> exact properMember_plain (by decide) hcount

theorem properMember_flag (hname : name = "uniqueItems" ∨ name = "readOnly") {flag : Bool}
    (h : (if flag then Json.bool true else .null) ≠ .null) :
    ProperMember name (if flag then .bool true else .null) := by
  cases flag with
  | false => exact absurd rfl h
  | true => rcases hname with rfl | rfl <;> exact properMember_plain (by decide) rfl

theorem unique_strings {names : List String} (h : names.Nodup) :
    unique (names.map .str) = true := by
  have hnone {same : Json → Json → Bool} (hsame : ∀ a b, same (.str a) (.str b) = (a == b)) :
      noneTwice same (names.map .str) = true := by
    induction names with
    | nil => rfl
    | cons n rest ih =>
      obtain ⟨hn, hrest⟩ := List.nodup_cons.1 h
      have hany : (rest.map Json.str).any (same (.str n)) = false := by
        rw [List.any_eq_false]
        intro v hv
        obtain ⟨m, hm, rfl⟩ := List.mem_map.1 hv
        rw [hsame]
        simpa using fun h : n = m => hn (h ▸ hm)
      rw [List.map_cons, noneTwice, hany, ih hrest]
      rfl
  rw [unique]
  split
  · exact hnone fun _ _ => rfl
  · exact hnone fun _ _ => rfl

theorem properMember_required {names : List String} (h : names.Nodup) :
    ProperMember "required" (strings names) := by
  refine properMember_plain (by decide) ?_
  have htypes : (names.map Json.str).findSome? (typeViolation? .string) = none := by
    simp [typeViolation?, hasType, type]
  show ((names.map Json.str).findSome? (typeViolation? .string)).or
    (if unique (names.map .str) = true then none else _) = none
  rw [htypes, unique_strings h]
  rfl

end Json

open Json

/-! ## The schemas of fields and models -/

section Schemas

variable {r : Registry} {field : Field} {model : Model} {out : Json}

theorem isLocal_stem (name : String) : IsLocal (referenceStem ++ name) := by
  rw [IsLocal, Reference.toList_stem]
  rfl

theorem proper_reference (name : String) : (reference name).Proper :=
  proper_obj (List.forall_mem_singleton.2 (properMember_reference (isLocal_stem name)))

namespace Field

theorem properMember_annotations : ∀ m ∈ field.annotations, ProperMember m.1 m.2 := by
  refine forall_mem_withoutNulls ?_
  simp only [List.forall_mem_cons, List.not_mem_nil, false_implies, implies_true, and_true]
  refine ⟨?_, ?_, ?_, ?_, ?_, ?_⟩
  · exact fun h => properMember_ofString? (by decide) h
  · exact fun h => properMember_ofString? (by decide) h
  · exact fun h => properMember_flag (.inr rfl) h
  · exact fun _ => properMember_plain (by decide) rfl
  · exact fun _ => properMember_plain (by decide) rfl
  · intro h
    cases hc : field.choices with
    | none =>
      rw [hc] at h
      exact absurd rfl h
    | some values => exact properMember_plain (by decide) rfl

theorem properMember_referring {name : String} {asList : Bool} :
    ∀ m ∈ referring name asList field.annotations, ProperMember m.1 m.2 := by
  unfold referring
  split
  · rw [List.forall_mem_append, List.forall_mem_cons, List.forall_mem_singleton]
    refine ⟨⟨properMember_type _, properMember_items ?_⟩, properMember_annotations⟩
    exact List.forall_mem_singleton.2 (properMember_reference (isLocal_stem name))
  · split
    · exact List.forall_mem_singleton.2 (properMember_reference (isLocal_stem name))
    · refine List.forall_mem_cons.2 ⟨properMember_allOf nofun ?_, properMember_annotations⟩
      exact List.forall_mem_singleton.2 (proper_reference name)

/-- The schema of a plain field has proper keywords. -/
theorem properMember_schema (hp : field.Plain) {members : Members}
    (h : field.schema r = .ok (.obj members)) : ∀ m ∈ members, ProperMember m.1 m.2 := by
  induction hp generalizing members with
  | scalar hs =>
    rw [schema_scalar hs] at h
    obtain rfl := Json.obj.inj (Except.ok.inj h)
    refine List.forall_mem_append.2 ⟨forall_mem_withoutNulls ?_, properMember_annotations⟩
    simp only [List.forall_mem_cons, List.not_mem_nil, false_implies, implies_true, and_true]
    exact ⟨fun _ => properMember_type _, fun h => properMember_ofString? (by decide) h⟩
  | list hs hi ih =>
    rw [schema_list hs] at h
    obtain ⟨inner, hinner, h⟩ := bind_eq_ok.1 h
    obtain ⟨given, rfl⟩ := exists_members_of_schema hinner
    obtain rfl := Json.obj.inj (pure_eq_ok.1 h)
    refine List.forall_mem_append.2 ⟨forall_mem_withoutNulls ?_, properMember_annotations⟩
    simp only [List.forall_mem_cons, List.not_mem_nil, false_implies, implies_true, and_true]
    refine ⟨fun _ => properMember_type _, fun _ => properMember_items (ih hinner), ?_, ?_, ?_⟩
    · exact fun h => properMember_count (.inl rfl) h
    · exact fun h => properMember_count (.inr rfl) h
    · exact fun h => properMember_flag (.inl rfl) h
  | named hs =>
    rw [schema_nested hs] at h
    obtain ⟨_, -, h⟩ := bind_eq_ok.1 h
    obtain rfl := Json.obj.inj (pure_eq_ok.1 h)
    exact properMember_referring
  | polymorph hs =>
    rw [schema_polymorph hs] at h
    obtain ⟨ancestor, -, h⟩ := bind_eq_ok.1 h
    obtain rfl := Json.obj.inj (pure_eq_ok.1 h)
    exact properMember_referring

end Field

namespace Model

theorem nodup_requiredNames : model.requiredNames.Nodup :=
  ascending_requiredNames.imp Std.ne_of_lt

/-- The own schema of a model has proper keywords. -/
theorem properMember_ownMembers (hp : ∀ e ∈ model.fields, e.2.Plain) {properties : Members}
    (hrel : model.Properties r properties) :
    ∀ m ∈ model.ownMembers properties, ProperMember m.1 m.2 := by
  have hproperties : ∀ m ∈ properties, m.2.Proper := by
    intro m hm
    obtain ⟨e, he, -, hschema⟩ := exists_left_of_mem hrel hm
    obtain ⟨members, hmembers⟩ := Field.exists_members_of_schema hschema
    rw [hmembers] at hschema ⊢
    exact proper_obj (Field.properMember_schema (hp e he) hschema)
  refine forall_mem_withoutNulls ?_
  simp only [List.forall_mem_cons, List.not_mem_nil, false_implies, implies_true, and_true]
  refine ⟨?_, ?_, ?_, ?_, ?_, ?_, ?_⟩
  · exact fun _ => properMember_type _
  · exact fun h => properMember_ofString? (by decide) h
  · exact fun _ => properMember_named (.inl rfl) hproperties
  · intro h
    split at h
    · exact absurd rfl h
    · rename_i hempty
      rw [if_neg hempty]
      exact properMember_required nodup_requiredNames
  · exact fun _ => properMember_plain (by decide) rfl
  · exact fun _ => properMember_plain (by decide) rfl
  · intro h
    split at h
    · rename_i hstrict
      rw [if_pos hstrict]
      exact properMember_closed
    · exact absurd rfl h

/-- The schema of a model has proper keywords. -/
theorem properMember_schemaMembers (hp : ∀ e ∈ model.fields, e.2.Plain) {properties : Members}
    (hrel : model.Properties r properties) :
    ∀ m ∈ model.schemaMembers (model.ownMembers properties), ProperMember m.1 m.2 := by
  have hown := properMember_ownMembers hp hrel
  rw [schemaMembers]
  split
  · exact hown
  · refine List.forall_mem_singleton.2 (properMember_allOf (by simp) ?_)
    rw [List.forall_mem_append, List.forall_mem_map, List.forall_mem_singleton]
    exact ⟨fun parent _ => proper_reference parent, proper_obj hown⟩

end Model

end Schemas

/-! ## Documents -/

section Documents

variable {r : Registry} {model : Model} {definitions : Members} {document : Json}

theorem proper_definitions (hr : r.Compilable) (h : r.definitions = .ok definitions) :
    ∀ m ∈ definitions, m.2.Proper := by
  intro m hm
  obtain ⟨model, hmodel, -, hschema⟩ := exists_left_of_mem (Registry.definitions_eq_ok h) hm
  obtain ⟨name, hname⟩ := Registry.exists_find?_of_mem_toList hmodel
  obtain ⟨properties, hrel, heq⟩ := Model.schema_eq_ok (hr.fits hname).nodup hschema
  rw [heq]
  exact proper_obj (Model.properMember_schemaMembers (hr.fits hname).plain hrel)

/-- **The document of a model is well-formed**, and so are its references. -/
theorem proper_modelDocument (hr : r.Compilable) (hm : model.Fits r)
    (h : r.modelDocument model = .ok document) : document.Proper := by
  obtain ⟨properties, definitions, hrel, hdefinitions, rfl⟩ := Registry.modelDocument_eq_ok hm h
  refine proper_obj fun m hmem => ?_
  rcases Keyed.mem_put hmem with rfl | hmem
  · exact properMember_named (.inr rfl) (proper_definitions hr hdefinitions)
  · exact Model.properMember_schemaMembers hm.plain hrel m hmem

theorem externalFault?_of_proper (h : document.Proper) : document.externalFault? = none := by
  have hnil : document.referenceLevels.flatten.filter (fun text => text.toList.head? ≠ some '#')
      = [] := by
    refine List.filter_eq_nil_iff.2 fun text ht => ?_
    have hlocal : text.toList.head? = some '#' := h.within text ht
    simp [hlocal]
  rw [externalFault?, hnil]
  rfl

/-- To check a value against a proper schema is to follow its rules. -/
theorem validateDocument_of_proper (h : document.Proper) (v : Json) (c : Comparison) :
    validateDocument document v c = validateRules document v c := by
  rw [validateDocument, externalFault?_of_proper h, h.wellformed]

end Documents

end FieldMask
