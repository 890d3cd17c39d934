import FieldMask.Proofs.Json.Distinct
import FieldMask.Proofs.Model.Conformance
import FieldMask.Proofs.Schema.Grounding

/-!
# Schemas mean what models say

In a document that holds the definitions of a registry, the schema of a model accepts the values
that conform to the model (`Model.accepts_iff`). The induction is on the value, and where the value
stays the same, on the rank of the model: what a model asks of members and items is asked of smaller
values, and what it asks of the value itself is asked by parents, which rank below it.

So validating a value against a model of a loaded registry is to ask whether it conforms
(`validate_iff_admits`).
-/

namespace FieldMask

open Schema

variable {q : Equality} {c : Comparison} {r : Registry} {document v : Json} {field : Field}
  {model : Model} {out : Json}

/-- In the document the registered models accept the value just if it conforms to them. -/
def Registry.AgreesOn (r : Registry) (q : Equality) (document v : Json) : Prop :=
  ∀ name model, r.find? name = some model →
    ((toModel name).Accepts q document v ↔ model.Admits q r v)

/-! ## Fields -/

namespace Field

theorem accepts_choiceKeywords :
    (keywords field.choiceKeywords).Accepts q document v ↔
      ∀ values, field.choices = some values → ∃ w ∈ values, q.same v w := by
  rw [choiceKeywords]
  cases field.choices with
  | none => simp [accepts_nil]
  | some values =>
    show (keywords [.choices values]).Accepts q document v ↔ _
    rw [accepts_own_iff rfl, Keyword.Holds]
    simp

theorem accepts_itemKeywords {least most : Option UInt64} {unique : Bool} {values : List Json} :
    (keywords (itemKeywords least most unique)).Accepts q document (.arr values) ↔
      (∀ n, least = some n → n.toNat ≤ values.length) ∧
        (∀ n, most = some n → values.length ≤ n.toNat) ∧
        (unique = true → q.unique values) := by
  rw [itemKeywords, accepts_append_iff, accepts_append_iff, and_assoc]
  refine and_congr ?_ (and_congr ?_ ?_)
  · cases least with
    | none => simp [accepts_nil]
    | some n =>
      show (keywords [.leastItems n.toNat]).Accepts q document _ ↔ _
      rw [accepts_own_iff rfl, Keyword.Holds]
      simp
  · cases most with
    | none => simp [accepts_nil]
    | some n =>
      show (keywords [.mostItems n.toNat]).Accepts q document _ ↔ _
      rw [accepts_own_iff rfl, Keyword.Holds]
      simp
  · cases unique with
    | false => simp [accepts_nil]
    | true =>
      show (keywords [.uniqueItems]).Accepts q document _ ↔ _
      rw [accepts_own_iff rfl, Keyword.Holds]
      simp

/-- An array whose items the schema accepts. -/
theorem accepts_array_iff {s : Schema} :
    (keywords [.type .array, .items s]).Accepts q document v ↔
      ∃ values, v = .arr values ∧ ∀ w ∈ values, s.Accepts q document w := by
  rw [accepts_cons_iff, accepts_own_iff rfl, accepts_own_iff rfl, Keyword.Holds, Keyword.Holds]
  cases v with
  | arr values =>
    simp [Json.hasType, Json.type]
  | _ => simp [Json.hasType, Json.type]

theorem accepts_referring {name : String} {asList : Bool} :
    (keywords (field.referringKeywords name asList)).Accepts q document v ↔
      (if asList then ∃ values, v = .arr values ∧ ∀ w ∈ values, (toModel name).Accepts q document w
        else (toModel name).Accepts q document v) ∧
      ∀ values, field.choices = some values → ∃ w ∈ values, q.same v w := by
  rw [referringKeywords, accepts_append_iff, accepts_choiceKeywords]
  refine and_congr_left fun _ => ?_
  split
  · exact accepts_array_iff
  · split
    · exact Iff.rfl
    · rw [accepts_allOf_iff, List.forall_mem_singleton]

/-- The schema of a sound field accepts what the field admits. -/
theorem accepts_iff (hp : field.Plain) (hf : field.Sound r) (h : field.schema r = .ok out)
    (hv : v.Distinct)
    (ih : ∀ w, sizeOf w ≤ sizeOf v → w.Distinct → r.AgreesOn q document w) :
    (ofJson out).Accepts q document v ↔ field.Admits q r v := by
  rw [admits_iff]
  induction hp generalizing out v with
  | scalar hs =>
    rw [ofJson_scalar hs h, accepts_cons_iff, accepts_own_iff rfl, Keyword.Holds,
      accepts_choiceKeywords, hs, Shape.admits_scalar_iff]
  | @list field items least most unique hs hi ih' =>
    obtain ⟨inner, hinner, hout⟩ := ofJson_list hs h
    have hitem {values : List Json} (hvalues : v = .arr values) :
        ∀ w ∈ values, ((ofJson inner).Accepts q document w ↔ items.Admits q r w) := by
      intro w hw
      subst hvalues
      have hlt := Json.sizeOf_lt_of_mem_items hw
      rw [Field.admits_iff]
      refine ih' (hf.items hs) hinner (Json.distinct_arr_iff.1 hv w hw) fun w' hle => ?_
      exact ih w' (Nat.le_of_lt (Nat.lt_of_le_of_lt hle hlt))
    rw [hout, accepts_append_iff, accepts_choiceKeywords, hs, Shape.admits_list_iff]
    refine and_congr_left fun _ => ?_
    show (keywords ([.type .array, .items (ofJson inner)] ++
      itemKeywords least most unique)).Accepts q document v ↔ _
    rw [accepts_append_iff, accepts_array_iff]
    constructor
    · rintro ⟨⟨values, rfl, hall⟩, hkeywords⟩
      obtain ⟨hl, hm, hu⟩ := accepts_itemKeywords.1 hkeywords
      exact ⟨values, rfl, hl, hm, hu, fun w hw => (hitem rfl w hw).1 (hall w hw)⟩
    · rintro ⟨values, rfl, hl, hm, hu, hall⟩
      refine ⟨⟨values, rfl, fun w hw => (hitem rfl w hw).2 (hall w hw)⟩, ?_⟩
      exact accepts_itemKeywords.2 ⟨hl, hm, hu⟩
  | @named field name asList hs =>
    obtain ⟨m, hm⟩ := hf.target hs
    rw [schema_nested hs, Target.name, Registry.lookup_eq_ok.2 hm] at h
    obtain rfl := Except.ok.inj h
    rw [ofJson_referring, accepts_referring, hs]
    refine and_congr_left fun _ => ?_
    cases asList with
    | true =>
      rw [if_pos rfl, Shape.admits_namedList_iff hm]
      refine exists_congr fun values => and_congr_right ?_
      rintro rfl
      refine forall₂_congr fun w hw => ?_
      have hle := Nat.le_of_lt (Json.sizeOf_lt_of_mem_items hw)
      exact ih w hle (Json.distinct_arr_iff.1 hv w hw) name m hm
    | false =>
      rw [if_neg Bool.false_ne_true, Shape.admits_named_iff hm]
      exact ih v (Nat.le_refl _) hv name m hm
  | polymorph hs =>
    obtain ⟨⟨ancestor, ha⟩, -⟩ := hf.mapping hs
    obtain ⟨name, hm⟩ := Registry.mem_of_commonAncestor ha
    rw [schema_polymorph hs, ha] at h
    obtain rfl := Except.ok.inj h
    rw [ofJson_referring, accepts_referring, hs, if_neg Bool.false_ne_true,
      Shape.admits_polymorph_iff ha, Registry.name_of_find? hm]
    exact and_congr_left fun _ => ih v (Nat.le_refl _) hv name ancestor hm

end Field

/-! ## Models -/

theorem mem_ascendingNames {names : List String} {name : String} :
    name ∈ ascendingNames names ↔ name ∈ names := by
  have hmem (m : NameMap Unit) : name ∈ m.names ↔ (m.find? name).isSome = true :=
    Keyed.contains_iff.symm
  have hfold (m : NameMap Unit) :
      (((names.map (·, ())).foldl (fun m (name, value) => m.insert name value) m).find? name).isSome
        = true ↔ name ∈ names ∨ (m.find? name).isSome = true := by
    induction names generalizing m with
    | nil => simp
    | cons n rest ih =>
      rw [List.map_cons, List.foldl_cons, ih, NameMap.find?_insert, List.mem_cons]
      split <;> simp [*]
  rw [ascendingNames, hmem, NameMap.ofPairs, hfold]
  simp [NameMap.empty, NameMap.find?]

namespace Model

theorem mem_requiredNames {name : String} :
    name ∈ model.requiredNames ↔ ∃ e ∈ model.fields, e.2.required = true ∧ e.1 = name := by
  rw [requiredNames, mem_ascendingNames, List.mem_map]
  simp only [List.mem_filter, and_assoc]

theorem accepts_compiled {members : List (String × Schema)} :
    (model.compiled members).Accepts q document v ↔
      (∀ name ∈ model.parents, (toModel name).Accepts q document v) ∧
        (keywords (model.ownKeywords members)).Accepts q document v := by
  rw [compiled]
  split
  · rename_i hempty
    rw [List.isEmpty_iff.1 hempty]
    simp
  · rw [accepts_allOf_iff, List.forall_mem_append, List.forall_mem_map, List.forall_mem_singleton]

/-- The own keywords of a model accept objects that have what the model asks for. -/
theorem accepts_ownKeywords {members : List (String × Schema)} :
    (keywords (model.ownKeywords members)).Accepts q document v ↔
      ∃ given, v = .obj given ∧
        (∀ e ∈ model.fields, e.2.required = true → e.1 ∈ Keyed.keys given) ∧
        if model.strict then (Keyword.closed members).Holds q document v
          else (Keyword.properties members).Holds q document v := by
  have htype : (keywords [.type .object]).Accepts q document v ↔ ∃ given, v = .obj given := by
    rw [accepts_own_iff rfl, Keyword.Holds]
    cases v <;> simp [Json.hasType, Json.type]
  have hrequired {given : Members} :
      (keywords (if model.requiredNames.isEmpty then []
        else [.required model.requiredNames])).Accepts q document (.obj given) ↔
      ∀ e ∈ model.fields, e.2.required = true → e.1 ∈ Keyed.keys given := by
    have hnames : (∀ n ∈ model.requiredNames, n ∈ Keyed.keys given) ↔
        ∀ e ∈ model.fields, e.2.required = true → e.1 ∈ Keyed.keys given := by
      simp only [mem_requiredNames]
      constructor
      · exact fun h e he hr => h e.1 ⟨e, he, hr, rfl⟩
      · rintro h _ ⟨e, he, hr, rfl⟩
        exact h e he hr
    rw [← hnames]
    split
    · rename_i hempty
      simp [accepts_nil, List.isEmpty_iff.1 hempty]
    · rw [accepts_own_iff rfl, Keyword.Holds]
      simp
  rw [ownKeywords, accepts_append_iff, accepts_append_iff, accepts_cons_iff, htype]
  constructor
  · rintro ⟨⟨⟨⟨given, rfl⟩, hproperties⟩, hneeded⟩, hclosed⟩
    refine ⟨given, rfl, hrequired.1 hneeded, ?_⟩
    cases hstrict : model.strict with
    | true =>
      rw [hstrict, if_pos rfl, accepts_own_iff rfl] at hclosed
      rwa [if_pos rfl]
    | false =>
      rw [hstrict, if_neg Bool.false_ne_true, accepts_own_iff rfl] at hproperties
      rwa [if_neg Bool.false_ne_true]
  · rintro ⟨given, rfl, hneeded, hmembers⟩
    refine ⟨⟨⟨⟨given, rfl⟩, ?_⟩, hrequired.2 hneeded⟩, ?_⟩
    · cases hstrict : model.strict with
      | true => exact accepts_nil
      | false =>
        rw [hstrict, if_neg Bool.false_ne_true] at hmembers
        rwa [if_neg Bool.false_ne_true, accepts_own_iff rfl]
    · cases hstrict : model.strict with
      | true =>
        rw [hstrict, if_pos rfl] at hmembers
        rwa [if_pos rfl, accepts_own_iff rfl]
      | false => exact accepts_nil

section Members

variable {members : List (String × Schema)} {given : Members}

/-- For a member of the object the schema accepts what the own field of its name admits. -/
def MatchesOn (q : Equality) (r : Registry) (document : Json) (given : Members) (name : String)
    (field : Field) (s : Schema) : Prop :=
  ∀ w, (name, w) ∈ given → (s.Accepts q document w ↔ field.Admits q r w)

theorem holds_properties_iff
    (hrel : Keyed.Related (MatchesOn q r document given) model.fields members) :
    (Keyword.properties members).Holds q document (.obj given) ↔
      ∀ e ∈ model.fields, ∀ w, given.lookup e.1 = some w → e.2.Admits q r w := by
  rw [Keyword.Holds]
  constructor
  · intro h e he w hw
    obtain ⟨m, hm, hkey, hmatches⟩ := exists_right_of_mem hrel he
    exact (hmatches w (Keyed.mem_of_lookup hw)).1 (h m hm w (hkey ▸ hw))
  · intro h m hm w hw
    obtain ⟨e, he, hkey, hmatches⟩ := exists_left_of_mem hrel hm
    have hlookup : given.lookup e.1 = some w := hkey ▸ hw
    exact (hmatches w (Keyed.mem_of_lookup hlookup)).2 (h e he w hlookup)

theorem holds_closed_iff (hn : (Keyed.keys model.fields).Nodup) (hg : (Keyed.keys given).Nodup)
    (hrel : Keyed.Related (MatchesOn q r document given) model.fields members) :
    (Keyword.closed members).Holds q document (.obj given) ↔
      Keyed.keys given ⊆ Keyed.keys model.fields ∧
        ∀ e ∈ model.fields, ∀ w, given.lookup e.1 = some w → e.2.Admits q r w := by
  rw [Keyword.Holds]
  constructor
  · intro h
    constructor
    · intro key hkey
      obtain ⟨m, hm, rfl⟩ := List.mem_map.1 hkey
      obtain ⟨s, hs, -⟩ := h given rfl m hm
      rw [hrel.keys_eq]
      exact Keyed.mem_keys_of_mem (Keyed.mem_of_lookup hs)
    · rintro ⟨name, field⟩ he w hw
      have hmem := Keyed.mem_of_lookup hw
      obtain ⟨s, hs, haccepts⟩ := h given rfl _ hmem
      rcases hrel.lookup name with ⟨-, hnone⟩ | ⟨field', s', hfield, hs', hmatches⟩
      · cases hnone.symm.trans hs
      · obtain rfl := Option.some.inj (hs.symm.trans hs')
        obtain rfl := Option.some.inj ((Keyed.lookup_of_mem hn he).symm.trans hfield)
        exact (hmatches w hmem).1 haccepts
  · rintro ⟨hkeys, hfields⟩ _ heq ⟨name, w⟩ hmem
    obtain rfl := Json.obj.inj heq
    rcases hrel.lookup name with ⟨hnone, -⟩ | ⟨field, s, hfield, hs, hmatches⟩
    · exact absurd (hkeys (Keyed.mem_keys_of_mem hmem)) (Keyed.lookup_eq_none_iff.1 hnone)
    · refine ⟨s, hs, (hmatches w hmem).2 ?_⟩
      exact hfields _ (Keyed.mem_of_lookup hfield) w (Keyed.lookup_of_mem hg hmem)

end Members

/--
The schema of a model accepts what conforms to the model, if this is so of its parents and for all
parts of the value.
-/
theorem accepts_step (hm : model.Fits r) {properties : Members}
    (hrel : model.Properties r properties) (hv : v.Distinct)
    (parts : ∀ w, sizeOf w < sizeOf v → w.Distinct → r.AgreesOn q document w)
    (parents : ∀ name ∈ model.parents, ∀ parent, r.find? name = some parent →
      ((toModel name).Accepts q document v ↔ parent.Admits q r v)) :
    (model.compiled (properties.map fun m => (m.1, ofJson m.2))).Accepts q document v ↔
      model.Admits q r v := by
  rw [accepts_compiled, accepts_ownKeywords]
  have hparents : (∀ name ∈ model.parents, (toModel name).Accepts q document v) ↔
      ∀ name ∈ model.parents, ∀ parent, r.find? name = some parent → parent.Admits q r v := by
    refine forall₂_congr fun name hname => ?_
    obtain ⟨parent, hp⟩ := hm.parents name hname
    rw [parents name hname parent hp]
    refine ⟨fun h p hp' => ?_, fun h => h parent hp⟩
    exact Option.some.inj (hp.symm.trans hp') ▸ h
  have hmatches {given : Members} (hgiven : v = .obj given) :
      Keyed.Related (MatchesOn q r document given) model.fields
        (properties.map fun m => (m.1, ofJson m.2)) := by
    subst hgiven
    obtain ⟨-, hparts⟩ := Json.distinct_obj_iff.1 hv
    have hfields : ∀ e ∈ model.fields, e.2.Plain ∧ e.2.Sound r := fun e he =>
      ⟨hm.plain e he, hm.sound e he⟩
    refine List.forall₂_map_right_iff.2 ?_
    refine ((List.forall₂_and_left _ _).2 ⟨hfields, hrel⟩).imp ?_
    rintro e m ⟨⟨hp, hs⟩, hkey, hschema⟩
    refine ⟨hkey, fun w hw => ?_⟩
    refine Field.accepts_iff hp hs hschema (hparts _ hw) fun w' hle => ?_
    exact parts w' (Nat.lt_of_le_of_lt hle (Json.sizeOf_lt_of_mem_members hw))
  constructor
  · rintro ⟨hp, given, rfl, hneeded, hmembers⟩
    refine Model.admits_obj_iff.2 ⟨hparents.1 hp, hneeded, ?_⟩
    split at hmembers
    · obtain ⟨hkeys, hfields⟩ := (holds_closed_iff hm.nodup (Json.distinct_obj_iff.1 hv).1
        (hmatches rfl)).1 hmembers
      exact ⟨fun _ => hkeys, hfields⟩
    · rename_i hstrict
      exact ⟨fun h => absurd h hstrict, (holds_properties_iff (hmatches rfl)).1 hmembers⟩
  · intro h
    obtain ⟨given, rfl⟩ := h.exists_obj
    obtain ⟨hp, hneeded, hstrict, hfields⟩ := Model.admits_obj_iff.1 h
    refine ⟨hparents.2 hp, given, rfl, hneeded, ?_⟩
    split
    · rename_i hs
      exact (holds_closed_iff hm.nodup (Json.distinct_obj_iff.1 hv).1 (hmatches rfl)).2
        ⟨hstrict hs, hfields⟩
    · exact (holds_properties_iff (hmatches rfl)).2 hfields

end Model

/-! ## Registries -/

namespace Registry

/-- **In a document with the definitions, registered models accept what conforms to them.** -/
theorem agreesOn (hr : r.Compilable) (hd : r.DefinedIn document) (v : Json) (hv : v.Distinct) :
    r.AgreesOn q document v := by
  obtain ⟨rank, hrank⟩ := hr.orderly.ranked
  have parts : ∀ w, sizeOf w < sizeOf v → w.Distinct → r.AgreesOn q document w :=
    fun w _ hw => agreesOn hr hd w hw
  intro name
  induction hname : rank name using Nat.strongRecOn generalizing name with
  | ind n ih =>
    intro model hm
    obtain ⟨out, hout, hresolve, -⟩ := resolve_reference hr.named hd hm
    obtain ⟨properties, hrel, rfl⟩ := Model.schema_eq_ok (hr.fits hm).nodup hout
    rw [toModel, accepts_reference_iff hresolve, Model.ofJson_schemaMembers]
    refine Model.accepts_step (hr.fits hm) hrel hv parts fun parent hparent p hp => ?_
    have hlt : rank parent < rank name := hrank.descends ⟨model, hm, hparent⟩
    exact ih (rank parent) (hname ▸ hlt) parent rfl p hp
termination_by sizeOf v

/-- The document of a model accepts what conforms to the model. -/
theorem accepts_modelDocument (hr : r.Compilable) (hm : model.Fits r)
    (h : r.modelDocument model = .ok document) (hv : v.Distinct) :
    (ofJson document).Accepts q document v ↔ model.Admits q r v := by
  obtain ⟨hd, properties, hrel, heq, -⟩ := DefinedIn.of_modelDocument hm h
  rw [heq]
  refine Model.accepts_step hm hrel hv (fun w _ hw => agreesOn hr hd w hw) ?_
  exact fun name _ parent hp => agreesOn hr hd v hv name parent hp

theorem validateRules_modelDocument (hr : r.Compilable) (hm : model.Fits r)
    (h : r.modelDocument model = .ok document) (hv : v.Distinct) :
    (validateRules document v c = .ok () ↔ model.Admits c.equality r v) ∧
      (¬model.Admits c.equality r v →
        ∃ errors, validateRules document v c = .error (.invalid errors)) := by
  obtain ⟨hd, -, -, -, hlegible⟩ := DefinedIn.of_modelDocument hm h
  obtain ⟨rank, hg⟩ := exists_grounded hr hd
  rw [← accepts_modelDocument hr hm h hv]
  exact ⟨validateRules_eq_ok_iff hg hlegible, exists_invalid hg hlegible⟩

theorem validate_eq_validateRules {name : String} (hm : r.find? name = some model)
    (h : r.modelDocument model = .ok document) :
    r.validate name v c = validateRules document v c := by
  rw [validate, lookup_eq_ok.2 hm]
  show (r.modelDocument model).mapError ValidateError.model >>= _ = _
  rw [h]
  rfl

/-- Validating is to ask whether a value conforms, values being equal as the validator has it. -/
theorem validate_iff {source : Json} (h : Registry.load source = .ok r)
    (hn : r.isPlainlyNamed = true) {name : String} (hm : r.find? name = some model)
    (hv : v.Distinct) :
    (r.validate name v c = .ok () ↔ model.Admits c.equality r v) ∧
      (¬model.Admits c.equality r v →
        ∃ errors, r.validate name v c = .error (.invalid errors)) := by
  have hr := compilable_of_load h hn
  obtain ⟨document, hdocument⟩ := exists_modelDocument hr.plain hr.checked hm
  rw [validate_eq_validateRules hm hdocument]
  exact validateRules_modelDocument hr (hr.fits hm) hdocument hv

/--
**Validating is to ask whether a value conforms.** A value is valid for a model of a loaded registry
of plain names if it conforms to the model by the declarations of its fields, and otherwise invalid.
Of the validator it is assumed that it compares values by meaning. The value writes no key twice, as
none that is read does (`Json.distinct_of_read`).
-/
theorem validate_iff_admits {source : Json} (h : Registry.load source = .ok r)
    (hn : r.isPlainlyNamed = true) {name : String} (hm : r.find? name = some model)
    (hv : v.Distinct) (hc : c.Standard) :
    (r.validate name v c = .ok () ↔ model.Admits .byMeaning r v) ∧
      (¬model.Admits .byMeaning r v →
        ∃ errors, r.validate name v c = .error (.invalid errors)) := by
  rw [← hc.equality_eq]
  exact validate_iff h hn hm hv

/-- Shops, which are places with a list of codes, no two the same, and a tag. -/
def shops : Json := .obj [("models", .arr [
  .obj [("name", .str "Tag"), ("strict", .bool true), ("fields", .obj [
    ("label", declared "string" [("required", .bool true)])])],
  .obj [("name", .str "Place"), ("fields", .obj [("spot", declared "raw" [("required", .bool true),
    ("enum", .arr [.obj [("x", .ofWord 1), ("y", .ofWord 2)]])])])],
  .obj [("name", .str "Shop"), ("inherits", .strings ["Place"]), ("fields", .obj [
    ("codes", declared "list" [("items", declared "integer" []), ("unique", .bool true)]),
    ("tag", declared "nested" [("model", .str "Tag")])])]])]

/-- The model of the tag of a shop. -/
def shopTag : Model where
  name := "Tag"
  fields := [("label", { shape := .scalar .string, required := true })]
  strict := true

/-- The model of places. -/
def shopPlace : Model where
  name := "Place"
  fields := [("spot", {
    shape := .scalar .raw
    required := true
    choices := some [.obj [("x", .ofWord 1), ("y", .ofWord 2)]] })]

/-- The model of shops. -/
def shop : Model where
  name := "Shop"
  fields := [("codes", { shape := .list (.ofKind .integer) none none true }),
    ("tag", { shape := .nested (.named "Tag") false })]
  parents := ["Place"]

theorem exists_shops :
    ∃ r, Registry.load shops = .ok r ∧ r.isPlainlyNamed = true ∧ r.find? "Shop" = some shop ∧
      r.find? "Place" = some shopPlace ∧ r.find? "Tag" = some shopTag := by
  have h : (Registry.load shops).map (fun r => (r.isPlainlyNamed, r.find? "Shop",
      r.find? "Place", r.find? "Tag")) = .ok (true, some shop, some shopPlace, some shopTag) := by
    cbv
  obtain ⟨r, hl, h⟩ := map_eq_ok.1 h
  exact ⟨r, hl, by simpa only [Prod.mk.injEq] using h⟩

/-- The members of a shop with a spot and codes. -/
def stock (spot : Members) (codes : List Json) : Members :=
  [("spot", .obj spot), ("codes", .arr codes), ("tag", .obj [("label", .str "a")])]

theorem admits_stock_iff (hp : r.find? "Place" = some shopPlace)
    (ht : r.find? "Tag" = some shopTag) {spot : Members} {codes : List Json} :
    shop.Admits q r (.obj (stock spot codes)) ↔
      q.same (.obj spot) (.obj [("x", .ofWord 1), ("y", .ofWord 2)]) ∧
        q.unique codes ∧ ∀ x ∈ codes, x.hasType .integer = true := by
  have hspot : (stock spot codes).lookup "spot" = some (.obj spot) := rfl
  have hcodes : (stock spot codes).lookup "codes" = some (.arr codes) := rfl
  have htag : (stock spot codes).lookup "tag" = some (.obj [("label", .str "a")]) := rfl
  have hkey : "spot" ∈ Keyed.keys (stock spot codes) := List.mem_cons_self
  have hplace : shopPlace.Admits q r (.obj (stock spot codes)) ↔
      q.same (.obj spot) (.obj [("x", .ofWord 1), ("y", .ofWord 2)]) := by
    rw [Model.admits_obj_iff]
    simp [shopPlace, hspot, hkey, Field.admits_iff, Shape.admits_scalar_iff, Json.hasType,
      Json.type, Kind.schemaType]
  have hlabel : shopTag.Admits q r (.obj [("label", .str "a")]) := by
    rw [Model.admits_obj_iff]
    simp [shopTag, Field.admits_iff, Shape.admits_scalar_iff, Json.hasType, Json.type,
      Kind.schemaType]
  rw [Model.admits_obj_iff]
  simp [shop, hp, hplace, hcodes, htag, hlabel, Field.admits_iff, Shape.admits_named_iff ht,
    Shape.admits_list_iff, Shape.admits_scalar_iff, Field.ofKind, Kind.schemaType]

/-- The number one as a float. -/
def floatOne : Number := .float ⟨false, 0x10000000000000, -52, by decide⟩

theorem value_floatOne : floatOne.value = 1 := by
  norm_num [floatOne, Number.value, Binary64.value]

/-- A shop with codes at the one spot there is, the first coordinate of which is written `1.0`. -/
def cornerShop (codes : List Json) : Json :=
  .obj (stock [("x", .num floatOne), ("y", .ofWord 2)] codes)

theorem admits_cornerShop (hp : r.find? "Place" = some shopPlace)
    (ht : r.find? "Tag" = some shopTag) :
    shop.Admits .byMeaning r (cornerShop [.ofWord 1, .ofWord 2]) ∧
      ¬shop.Admits .byMeaning r (cornerShop [.ofWord 1, .num floatOne]) := by
  rw [cornerShop, cornerShop, admits_stock_iff hp ht, admits_stock_iff hp ht]
  refine ⟨⟨?_, List.pairwise_pair.2 ?_, by decide +kernel⟩, fun h => ?_⟩
  · exact .cons (.num (value_floatOne.trans Int.cast_one.symm)) (.refl _)
  · rintro ⟨⟩
    rename_i h
    exact absurd (Int.cast_injective h) (by decide)
  · exact List.pairwise_pair.1 h.2.1 (.num (value_floatOne ▸ Int.cast_one))

/-- On these shops the installed comparison is right. -/
theorem admits_cornerShop_installed (hp : r.find? "Place" = some shopPlace)
    (ht : r.find? "Tag" = some shopTag) :
    shop.Admits Comparison.installed.equality r (cornerShop [.ofWord 1, .ofWord 2]) ∧
      ¬shop.Admits Comparison.installed.equality r (cornerShop [.ofWord 1, .num floatOne]) := by
  rw [cornerShop, cornerShop, admits_stock_iff hp ht, admits_stock_iff hp ht, Comparison.equality]
  exact ⟨by decide +kernel, by decide +kernel⟩

theorem distinct_cornerShop {codes : List Json} (h : (Json.arr codes).Distinct) :
    (cornerShop codes).Distinct := by
  have hkeys : (Keyed.keys (stock [("x", .num floatOne), ("y", .ofWord 2)] codes)).Nodup := by
    simp [stock]
  exact ⟨hkeys, ⟨by decide, trivial, trivial, trivial⟩, h, ⟨by decide, trivial, trivial⟩, trivial⟩

/--
The codes `1` and `2` are valid, and `1` and `1.0` are not. The installed comparison gives the same
answers as the exact one.
-/
theorem validate_iff_admits_shops :
    let good := cornerShop [.ofWord 1, .ofWord 2]
    let bad := cornerShop [.ofWord 1, .num floatOne]
    ∃ r, Registry.load shops = .ok r ∧ r.isPlainlyNamed = true ∧ r.find? "Shop" = some shop ∧
      good.Distinct ∧ bad.Distinct ∧ Comparison.exact.Standard ∧
      (r.validate "Shop" good .exact = .ok () ∧ r.validate "Shop" good .installed = .ok ()) ∧
      (∃ errors, r.validate "Shop" bad .exact = .error (.invalid errors)) ∧
      ∃ errors, r.validate "Shop" bad .installed = .error (.invalid errors) := by
  intro good bad
  obtain ⟨r, hl, hn, hshop, hplace, htag⟩ := exists_shops
  have hgood : good.Distinct := distinct_cornerShop ⟨trivial, trivial, trivial⟩
  have hbad : bad.Distinct := distinct_cornerShop ⟨trivial, trivial, trivial⟩
  have hstandard := Comparison.exact_standard
  obtain ⟨hvalid, hinvalid⟩ := admits_cornerShop hplace htag
  obtain ⟨hvalid', hinvalid'⟩ := admits_cornerShop_installed hplace htag
  refine ⟨r, hl, hn, hshop, hgood, hbad, hstandard, ⟨?_, ?_⟩, ?_, ?_⟩
  · exact (validate_iff_admits hl hn hshop hgood hstandard).1.2 hvalid
  · exact (validate_iff hl hn hshop hgood).1.2 hvalid'
  · exact (validate_iff_admits hl hn hshop hbad hstandard).2 hinvalid
  · exact (validate_iff hl hn hshop hbad).2 hinvalid'

end Registry

end FieldMask
