import FieldMask.Proofs.Schema.Conformance

/-!
# What strict models refuse

The schema of a strict model closes its own fields, wherever in a lineage the model stands: a member
is unexpected if some strict model of the lineage has no own field of its name (`refuses_iff`), even
if the flat model has one. So the members that a model has fields for are all expected just if each
strict model of its lineage declares all of these fields itself (`strict_agrees_iff`).
-/

namespace FieldMask

open Schema

variable {r : Registry} {document : Json} {model owner : Model} {name : String}

namespace Model

/-- What the schema of a model asks for comes from its parents or from its own fields. -/
theorem has_compiled_iff {members : List (String × Schema)} {k : Keyword} :
    (model.compiled members).Has document k ↔
      (∃ parent ∈ model.parents, (toModel parent).Has document k) ∨
        k ∈ model.ownKeywords members := by
  have hown : (keywords (model.ownKeywords members)).Has document k ↔
      k ∈ model.ownKeywords members := by
    constructor
    · intro h
      cases h with
      | own hk _ => exact hk
      | allOf hl _ _ => cases leadsOn_ownKeywords _ hl
      | reference hl _ _ => cases leadsOn_ownKeywords _ hl
    · exact fun h => .own h (leadsOn_ownKeywords k h)
  rw [compiled, ← hown]
  split
  · rename_i hempty
    rw [List.isEmpty_iff.1 hempty]
    simp
  · rw [has_allOf_iff]
    simp

theorem closed_mem_ownKeywords {members members' : List (String × Schema)} :
    .closed members' ∈ model.ownKeywords members ↔ model.strict = true ∧ members' = members := by
  rw [ownKeywords, List.mem_append, List.mem_append, List.mem_cons]
  cases model.strict <;> simp

end Model

/-- The schema closes objects to members of the given names. -/
def Schema.Closes (document : Json) (s : Schema) (names : List String) : Prop :=
  ∃ members, s.Has document (.closed members) ∧ Keyed.keys members = names

theorem Model.closes_compiled_iff {properties : Members} (hrel : model.Properties r properties)
    {names : List String} :
    (model.compiled (properties.map fun m => (m.1, ofJson m.2))).Closes document names ↔
      (∃ parent ∈ model.parents, (toModel parent).Closes document names) ∨
        model.strict = true ∧ Keyed.keys model.fields = names := by
  have hkeys :
      Keyed.keys (properties.map fun m => (m.1, ofJson m.2)) = Keyed.keys model.fields := by
    rw [hrel.keys_eq, Keyed.keys, Keyed.keys, List.map_map]
    rfl
  unfold Schema.Closes
  simp only [has_compiled_iff, closed_mem_ownKeywords]
  constructor
  · rintro ⟨members, ⟨parent, hp, h⟩ | ⟨hstrict, rfl⟩, hnames⟩
    · exact .inl ⟨parent, hp, members, h, hnames⟩
    · exact .inr ⟨hstrict, hkeys.symm.trans hnames⟩
  · rintro (⟨parent, hp, members, h, hnames⟩ | ⟨hstrict, hnames⟩)
    · exact ⟨members, .inl ⟨parent, hp, h⟩, hnames⟩
    · exact ⟨_, .inr ⟨hstrict, rfl⟩, hkeys.trans hnames⟩

namespace Registry

/-- Some strict model of the lineage has own fields of the names. -/
def Encloses (r : Registry) (model : Model) (names : List String) : Prop :=
  ∃ owner, r.Lineage model owner ∧ owner.strict = true ∧ Keyed.keys owner.fields = names

theorem encloses_iff {names : List String} :
    r.Encloses model names ↔
      (∃ parent ∈ model.parents, ∃ m, r.find? parent = some m ∧ r.Encloses m names) ∨
        model.strict = true ∧ Keyed.keys model.fields = names := by
  constructor
  · rintro ⟨owner, hl, hstrict, hnames⟩
    cases hl with
    | refl => exact .inr ⟨hstrict, hnames⟩
    | parent hp hm hl => exact .inl ⟨_, hp, _, hm, owner, hl, hstrict, hnames⟩
  · rintro (⟨parent, hp, m, hm, owner, hl, hstrict, hnames⟩ | ⟨hstrict, hnames⟩)
    · exact ⟨owner, .parent hp hm hl, hstrict, hnames⟩
    · exact ⟨model, .refl model, hstrict, hnames⟩

theorem closes_step (hm : model.Fits r) {properties : Members}
    (hrel : model.Properties r properties) {names : List String}
    (parents : ∀ parent ∈ model.parents, ∀ m, r.find? parent = some m →
      ((toModel parent).Closes document names ↔ r.Encloses m names)) :
    (model.compiled (properties.map fun m => (m.1, ofJson m.2))).Closes document names ↔
      r.Encloses model names := by
  rw [Model.closes_compiled_iff hrel, encloses_iff]
  refine or_congr_left (exists_congr fun parent => and_congr_right fun hp => ?_)
  obtain ⟨m, hparent⟩ := hm.parents parent hp
  rw [parents parent hp m hparent]
  refine ⟨fun h => ⟨m, hparent, h⟩, fun ⟨m', hm', h⟩ => ?_⟩
  exact Option.some.inj (hm'.symm.trans hparent) ▸ h

/-- The schema of a registered model closes the own fields of the strict models of its lineage. -/
theorem closes_toModel_iff (hr : r.Compilable) (hd : r.DefinedIn document)
    (hm : r.find? name = some model) {names : List String} :
    (toModel name).Closes document names ↔ r.Encloses model names := by
  obtain ⟨rank, hrank⟩ := hr.orderly.ranked
  induction hn : rank name using Nat.strongRecOn generalizing name model with
  | ind n ih =>
    obtain ⟨out, hout, hresolve, -⟩ := resolve_reference hr.named hd hm
    obtain ⟨properties, hrel, rfl⟩ := Model.schema_eq_ok (hr.fits hm).nodup hout
    have hcompiled : (toModel name).Closes document names ↔
        (model.compiled (properties.map fun m => (m.1, ofJson m.2))).Closes document names := by
      simp only [Schema.Closes, toModel, has_reference_iff hresolve, Model.ofJson_schemaMembers]
    rw [hcompiled]
    refine closes_step (hr.fits hm) hrel fun parent hp m hparent => ?_
    have hlt : rank parent < rank name := hrank.descends ⟨model, hm, hp⟩
    exact ih (rank parent) (hn ▸ hlt) hparent rfl

/-- So does the document of a registered model. -/
theorem closes_modelDocument_iff (hr : r.Compilable) (hm : r.find? name = some model)
    (h : r.modelDocument model = .ok document) {names : List String} :
    (ofJson document).Closes document names ↔ r.Encloses model names := by
  obtain ⟨hd, properties, hrel, heq, -⟩ := DefinedIn.of_modelDocument (hr.fits hm) h
  rw [heq]
  exact closes_step (hr.fits hm) hrel fun _ _ _ hparent => closes_toModel_iff hr hd hparent

/-- Validating reports members of the whole value that are not expected. -/
def Refuses (r : Registry) (name : String) (v : Json) : Prop :=
  ∃ errors names, r.validate name v = .error (.invalid errors) ∧
    ⟨.root, .unexpectedMembers names⟩ ∈ errors

/--
Members of an object are reported as unexpected just if some strict model of the lineage has no own
field of the name of one of them.
-/
theorem refuses_iff {source : Json} (h : Registry.load source = .ok r)
    (hn : r.isPlainlyNamed = true) (hm : r.find? name = some model) {given : Members} :
    r.Refuses name (.obj given) ↔
      ∃ owner, r.Lineage model owner ∧ owner.strict = true ∧
        ∃ key ∈ Keyed.keys given, key ∉ Keyed.keys owner.fields := by
  have hr := compilable_of_load h hn
  obtain ⟨document, hdocument⟩ := exists_modelDocument hr.plain hr.checked hm
  obtain ⟨hd, -, -, -, hlegible⟩ := DefinedIn.of_modelDocument (hr.fits hm) hdocument
  obtain ⟨rank, hg⟩ := exists_grounded hr hd
  have hunlisted (members : List (String × Schema)) :
      Validation.unlisted members given ≠ [] ↔
        ∃ key ∈ Keyed.keys given, key ∉ Keyed.keys members := by
    rw [Validation.unlisted, ne_eq, List.filter_eq_nil_iff]
    simp [← Keyed.contains_iff]
  have hreports : r.Refuses name (.obj given) ↔
      ∃ members, (ofJson document).Has document (.closed members) ∧
        ∃ key ∈ Keyed.keys given, key ∉ Keyed.keys members := by
    unfold Refuses
    rw [exists_comm]
    simp only [validate_eq_validateRules hm hdocument, exists_unexpected_iff hg hlegible]
    constructor
    · rintro ⟨names, members, _, hk, heq, hne, rfl⟩
      obtain rfl := Json.obj.inj heq
      exact ⟨members, hk, (hunlisted members).1 hne⟩
    · rintro ⟨members, hk, hkey⟩
      exact ⟨_, members, given, hk, rfl, (hunlisted members).2 hkey, rfl⟩
  rw [hreports]
  constructor
  · rintro ⟨members, hk, key, hkey, hnew⟩
    obtain ⟨owner, hl, hstrict, hkeys⟩ :=
      (closes_modelDocument_iff hr hm hdocument).1 ⟨members, hk, rfl⟩
    exact ⟨owner, hl, hstrict, key, hkey, hkeys ▸ hnew⟩
  · rintro ⟨owner, hl, hstrict, key, hkey, hnew⟩
    obtain ⟨members, hk, hkeys⟩ :=
      (closes_modelDocument_iff hr hm hdocument).2 ⟨owner, hl, hstrict, rfl⟩
    exact ⟨members, hk, key, hkey, hkeys ▸ hnew⟩

/--
**When strictness agrees with flattening.** Whatever members with the names of its flattened fields
an object has, none is reported as unexpected, just if every strict model of the lineage declares
all fields of the lineage itself.
-/
theorem strict_agrees_iff {source : Json} (h : Registry.load source = .ok r)
    (hn : r.isPlainlyNamed = true) (hm : r.find? name = some model) {flat : FlatModel}
    (hf : r.resolve model = .ok flat) :
    (∀ given, Keyed.keys given ⊆ Keyed.keys flat.fields → ¬r.Refuses name (.obj given)) ↔
      ∀ owner other, r.Lineage model owner → owner.strict = true → r.Lineage model other →
        Keyed.keys other.fields ⊆ Keyed.keys owner.fields := by
  constructor
  · intro hexpected owner other hl hstrict hother key hkey
    by_contra hnew
    refine hexpected [(key, .null)] (by simpa using hother.keys_resolve hf hkey) ?_
    exact (refuses_iff h hn hm).2 ⟨owner, hl, hstrict, key, List.mem_cons_self, hnew⟩
  · intro hown given hkeys hrefuses
    obtain ⟨owner, hl, hstrict, key, hkey, hnew⟩ := (refuses_iff h hn hm).1 hrefuses
    obtain ⟨e, he, rfl⟩ := List.mem_map.1 (hkeys hkey)
    obtain ⟨other, field, hother, hmem, -⟩ := lineage_of_resolve hf he
    exact hnew (hown owner other hl hstrict hother (List.mem_map.2 ⟨_, hmem, rfl⟩))

/-- A strict model that declares the field of its parent once more. -/
def strictCopy : Json := .obj [("models", .arr [
  .obj [("name", .str "A"), ("fields", .obj [("a", declared "string" [])])],
  .obj [("name", .str "C"), ("inherits", .strings ["A"]), ("strict", .bool true),
    ("fields", .obj [("a", declared "string" []), ("c", declared "string" [])])]])]

/-- Its parent. -/
def copied : Model where
  name := "A"
  fields := [("a", .ofKind .string)]

/-- The strict model itself. -/
def copying : Model where
  name := "C"
  fields := [("a", .ofKind .string), ("c", .ofKind .string)]
  parents := ["A"]
  strict := true

/-- Both fields of the lineage are declared by its strict model, so neither is refused. -/
theorem strict_agrees_iff_strictCopy :
    ∃ r flat, Registry.load strictCopy = .ok r ∧ r.isPlainlyNamed = true ∧
      r.find? "C" = some copying ∧ copying.strict = true ∧ r.resolve copying = .ok flat ∧
      Keyed.keys [("c", Json.str "y"), ("a", .null)] ⊆ Keyed.keys flat.fields ∧
      ¬r.Refuses "C" (.obj [("c", .str "y"), ("a", .null)]) := by
  have h : (Registry.load strictCopy).map (fun r => (r.isPlainlyNamed, r.find? "A", r.find? "C"))
      = .ok (true, some copied, some copying) := by
    cbv
  obtain ⟨r, hl, h⟩ := map_eq_ok.1 h
  obtain ⟨hn, ha, hc⟩ := by simpa only [Prod.mk.injEq] using h
  obtain ⟨flat, hflat, -⟩ := sound_of_load hl "C" copying hc
  have hgiven : Keyed.keys [("c", Json.str "y"), ("a", .null)] ⊆ Keyed.keys flat.fields :=
    List.Subset.trans (by decide) ((Lineage.refl copying).keys_resolve hflat)
  have hlineage {m : Model} (hm : r.Lineage copying m) : m = copying ∨ m = copied :=
    hm.eq_or_eq rfl ha rfl
  refine ⟨r, flat, hl, hn, hc, rfl, hflat, hgiven, ?_⟩
  refine (strict_agrees_iff hl hn hc hflat).2 (fun owner other howner hs hother => ?_) _ hgiven
  rcases hlineage howner with rfl | rfl
  · rcases hlineage hother with rfl | rfl <;> decide
  · cases hs

/-- A strict model that inherits from another. -/
def strictHeir : Json := .obj [("models", .arr [
  .obj [("name", .str "A"), ("fields", .obj [("a", declared "string" [])])],
  .obj [("name", .str "B"), ("inherits", .strings ["A"]), ("strict", .bool true),
    ("fields", .obj [("b", declared "string" [])])]])]

theorem exists_strictHeir :
    ∃ r b, Registry.load strictHeir = .ok r ∧ r.isPlainlyNamed = true ∧
      (r.find? "B" = some b ∧ b.strict = true ∧ Keyed.keys b.fields = ["b"]) ∧
      ∃ flat, r.resolve b = .ok flat ∧ Keyed.keys flat.fields = ["a", "b"] := by
  have h : ((Registry.load strictHeir).toOption.any fun r => r.isPlainlyNamed &&
      (r.find? "B").any fun b => b.strict && Keyed.keys b.fields == ["b"] &&
        (r.resolve b).toOption.any fun flat => Keyed.keys flat.fields == ["a", "b"]) = true := by
    cbv
  obtain ⟨r, hl, h⟩ := exists_of_any_toOption h
  obtain ⟨hn, h⟩ := Bool.and_eq_true_iff.1 h
  obtain ⟨b, hb, h⟩ := (Option.any_eq_true _ _).1 h
  obtain ⟨hfields, h⟩ := Bool.and_eq_true_iff.1 h
  obtain ⟨flat, hflat, hkeys⟩ := exists_of_any_toOption h
  simp only [Bool.and_eq_true, beq_iff_eq] at hfields hkeys
  exact ⟨r, b, hl, hn, ⟨hb, hfields⟩, flat, hflat, hkeys⟩

/-- The flattened heir has a field of the name `a`, and yet the member is unexpected. -/
theorem refuses_inherited_member :
    ∃ r b flat, Registry.load strictHeir = .ok r ∧ r.isPlainlyNamed = true ∧
      r.find? "B" = some b ∧ r.resolve b = .ok flat ∧
      Keyed.keys [("a", Json.str "x"), ("b", .str "y")] ⊆ Keyed.keys flat.fields ∧
      r.Refuses "B" (.obj [("a", .str "x"), ("b", .str "y")]) := by
  obtain ⟨r, b, hl, hn, ⟨hb, hstrict, hfields⟩, flat, hflat, hkeys⟩ := exists_strictHeir
  refine ⟨r, b, flat, hl, hn, hb, hflat, by rw [hkeys]; decide, ?_⟩
  refine (refuses_iff hl hn hb).2 ⟨b, .refl b, hstrict, "a", List.mem_cons_self, ?_⟩
  rw [hfields]
  decide

end Registry

end FieldMask
