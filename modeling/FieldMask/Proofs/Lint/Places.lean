import FieldMask.Proofs.Declaration.Places
import FieldMask.Proofs.Json.Roundtrip
import FieldMask.Proofs.Lint.Loading
import Mathlib

/-!
# Where linting finds faults

The path of a diagnostic is built from names, and it reads as a JSON pointer if no field has a slash
or a tilde in its name. The pointer leads into the document, with two exceptions: a field that is
copied from another model is looked for where its model is declared, and the items and the mask of
a field are looked for by name even if the field is declared as an array (`lintFile_places`).
-/

namespace FieldMask

/-! ## Plain paths -/

theorem isPlain_models : Pointer.IsPlain "models" := by decide

namespace Turn

/-- The place that the labels of the steps name. -/
def labels (turns : List Turn) : Pointer := ⟨turns.map (·.label)⟩

/-- A path of plain labels reads as the place that they name. -/
theorem ofText?_path_of_plain {turns : List Turn}
    (h : ∀ turn ∈ turns, Pointer.IsPlain turn.label) :
    Pointer.ofText? (path turns) = some (labels turns) := by
  have hpath : path (turns.map fun turn => plain turn.label) = path turns := by
    induction turns with
    | nil => rfl
    | cons turn rest ih =>
      rw [List.map_cons, path, path, ih fun turn ht => h turn (List.mem_cons_of_mem _ ht)]
      rfl
  have hplace : place (turns.map fun turn => plain turn.label) = labels turns := by
    rw [place, labels, List.map_map]
    rfl
  rw [← hpath, ← hplace, ofText?_path_iff, List.forall_mem_map]
  exact fun turn ht => (Pointer.escape_eq_self_iff.2 (h turn ht)).symm

end Turn

namespace Lint

/-! ## Places that are missed -/

/-- The pointer goes on from an array to items or to a mask, as if it were an object. -/
def BehindArray (document : Json) (p : Pointer) : Prop :=
  ∃ front label rest items, p.segments = front ++ label :: rest ∧
    document.resolve? ⟨front⟩ = some (.arr items) ∧ (label = "items" ∨ label = "mask")

/--
The pointer goes on to a field where a model is declared which is cloned from others, and which does
not declare that field.
-/
def Copied (document : Json) (p : Pointer) : Prop :=
  ∃ (i : Nat) (value : Json) (d : Declaration) (name : String) (rest : List String),
    p.segments = "models" :: Number.intText i :: "fields" :: name :: rest ∧
    document.resolve? ⟨["models", Number.intText i]⟩ = some value ∧
    Declaration.read (Declaration.pathAt i) value = .ok d ∧ d.sources ≠ [] ∧
    document.resolve? ⟨["models", Number.intText i, "fields", name]⟩ = none

theorem resolve?_append (value : Json) (front rest : List String) :
    value.resolve? ⟨front ++ rest⟩ = (value.resolve? ⟨front⟩).bind (·.resolve? ⟨rest⟩) :=
  List.foldlM_append

variable {document value : Json} {p : Pointer}

theorem BehindArray.resolve? (h : BehindArray document p) : document.resolve? p = none := by
  obtain ⟨front, label, rest, items, hp, harr, hlabel⟩ := h
  have hnone : (Json.arr items).refer? label = none := by
    rcases hlabel with rfl | rfl <;> rfl
  obtain ⟨segments⟩ := p
  obtain rfl : segments = _ := hp
  rw [resolve?_append, harr, Option.bind_some, Json.resolve?_cons, hnone]
  rfl

theorem Copied.resolve? (h : Copied document p) : document.resolve? p = none := by
  obtain ⟨i, value, d, name, rest, hp, -, -, -, hnone⟩ := h
  obtain ⟨segments⟩ := p
  obtain rfl : segments = ["models", Number.intText i, "fields", name] ++ rest := hp
  rw [resolve?_append, hnone]
  rfl

theorem BehindArray.behind {x : Json} {segment : String} {segments : List String}
    (h : BehindArray x ⟨segments⟩) (hx : value.refer? segment = some x) :
    BehindArray value ⟨segment :: segments⟩ := by
  obtain ⟨front, label, rest, items, hp, harr, hlabel⟩ := h
  refine ⟨segment :: front, label, rest, items, congrArg (segment :: ·) hp, ?_, hlabel⟩
  rw [Json.resolve?_cons, hx]
  exact harr

/-- The pointer leads into the value, or goes on from an array as if it were an object. -/
def Reaches (value : Json) (p : Pointer) : Prop :=
  (value.resolve? p).isSome ∨ BehindArray value p

theorem reaches_nil : Reaches value ⟨[]⟩ := .inl rfl

theorem Reaches.behind {x : Json} {segment : String} {segments : List String}
    (h : Reaches x ⟨segments⟩) (hx : value.refer? segment = some x) :
    Reaches value ⟨segment :: segments⟩ := by
  rcases h with h | h
  · refine .inl ?_
    rw [Json.resolve?_cons, hx]
    exact h
  · exact .inr (h.behind hx)

/-- A pointer goes on to a member of a record by its name, unless that is written as an array. -/
theorem Reaches.member {σ : Type} {r : Record σ} {x : Json} {label segment : String}
    {segments : List String} (h : Reaches x ⟨segments⟩) (hx : r.MemberAt label value segment x)
    (hlabel : label = "items" ∨ label = "mask") : Reaches value ⟨label :: segments⟩ := by
  cases hx with
  | named hx => exact h.behind hx
  | @counted items _ _ _ _ => exact .inr ⟨[], label, segments, items, rfl, rfl, hlabel⟩

/-! ## Parts of declarations -/

theorem reaches_fieldPart {part : Part} {turns : List Turn} {v : Json}
    (h : FieldPart value part turns v) : Reaches value (Turn.labels turns) := by
  induction h with
  | field => exact reaches_nil
  | mask h => exact reaches_nil.member h (.inr rfl)
  | items h _ ih => exact ih.member h (.inl rfl)

theorem isPlain_fieldPart {part : Part} {turns : List Turn} {v : Json}
    (h : FieldPart value part turns v) : ∀ turn ∈ turns, Pointer.IsPlain turn.label := by
  induction h with
  | field => exact List.forall_mem_nil _
  | mask _ => exact List.forall_mem_singleton.2 isPlain_mask
  | items _ _ ih => exact List.forall_mem_cons.2 ⟨isPlain_items, ih⟩

/-- The model is declared by an object, and its fields have plain names. -/
structure PlainlyDeclared (value : Json) : Prop where
  object : value.type = .object
  names : ∀ fields, value.get? "fields" = some (.obj fields) →
    ∀ name ∈ Keyed.keys fields, Pointer.IsPlain name

theorem PlainlyDeclared.refer? (h : PlainlyDeclared value) {name segment : String} {v : Json}
    (hv : ModelDeclaration.record.MemberAt name value segment v) : value.get? name = some v := by
  cases hv with
  | named hv => exact hv
  | counted _ _ => cases h.object

theorem PlainlyDeclared.isPlain (h : PlainlyDeclared value) {name : String} {fields x : Json}
    (hf : value.get? "fields" = some fields) (hx : fields.get? name = some x) :
    Pointer.IsPlain name := by
  cases fields with
  | obj fields => exact h.names fields hf name (Keyed.mem_keys_of_mem (Keyed.mem_of_lookup hx))
  | _ => cases hx

theorem reaches_modelPart (hvalue : PlainlyDeclared value) {part : Part} {turns : List Turn}
    {v : Json} (h : ModelPart value part turns v) :
    Reaches value (Turn.labels turns) ∧ ∀ turn ∈ turns, Pointer.IsPlain turn.label := by
  cases h with
  | model => exact ⟨reaches_nil, List.forall_mem_nil _⟩
  | mask h =>
    exact ⟨reaches_nil.member h (.inr rfl), List.forall_mem_singleton.2 isPlain_mask⟩
  | field h hx hp =>
    have hf := hvalue.refer? h
    refine ⟨((reaches_fieldPart hp).behind (refer?_of_get? hx)).behind (refer?_of_get? hf), ?_⟩
    refine List.forall_mem_cons.2 ⟨isPlain_fields, ?_⟩
    exact List.forall_mem_cons.2 ⟨hvalue.isPlain hf hx, isPlain_fieldPart hp⟩

/--
The path reads as a pointer that leads into the document, or misses it behind an array or at a
copied field.
-/
def Points (document : Json) (path : String) : Prop :=
  ∃ p, Pointer.ofText? path = some p ∧ (Reaches document p ∨ Copied document p)

section Document

variable {values : List Json} {i : Nat}

theorem points_of_modelPart (hm : document.get? "models" = some (.arr values))
    (hi : values[i]? = some value) (hvalue : PlainlyDeclared value) {part : Part}
    {turns : List Turn} {v : Json} (h : ModelPart value part turns v) :
    Points document (Declaration.pathAt i ++ Turn.path turns) := by
  obtain ⟨hreach, hplain⟩ := reaches_modelPart hvalue h
  rw [← Turn.path_models]
  refine ⟨_, Turn.ofText?_path_of_plain ?_, .inl ?_⟩
  · refine List.forall_mem_cons.2 ⟨isPlain_models, ?_⟩
    exact List.forall_mem_cons.2 ⟨isPlain_intText i, hplain⟩
  · exact (hreach.behind ((Json.refer?_item i).trans hi)).behind (refer?_of_get? hm)

theorem points_of_pathAt (hm : document.get? "models" = some (.arr values))
    (hi : values[i]? = some value) (hvalue : PlainlyDeclared value) :
    Points document (Declaration.pathAt i) := by
  have h := points_of_modelPart hm hi hvalue .model
  rwa [Turn.path, String.append_empty] at h

end Document

/-! ## Fields that are checked -/

section Field

variable {r : Registry} {path : String} {field : Field} {l : Located}

theorem path_of_ofModelError {α : Type} {x : Except ModelError α} (h : l ∈ ofModelError path x) :
    l.1 = path := by
  cases x with
  | ok a => cases h
  | error e =>
    rw [List.mem_singleton.1 h]

/-- What is found in a field that is no list is found at its path. -/
theorem path_of_checkField
    (hf : ∀ items least most unique, field.shape ≠ .list items least most unique)
    (h : l ∈ checkField r path field) : l.1 = path := by
  cases hs : field.shape with
  | scalar kind =>
    rw [checkField_scalar hs] at h
    cases h
  | list items least most unique => exact absurd hs (hf items least most unique)
  | nested target asList =>
    rw [checkField_nested hs] at h
    exact path_of_ofModelError h
  | polymorph mapping =>
    rw [checkField_polymorph hs] at h
    split at h
    · exact path_of_ofModelError h
    · obtain ⟨name, -, rfl⟩ := List.mem_map.1 h
      rfl

/-- What is found in a field that is declared is found at the declaration of it or of its items. -/
theorem exists_part_of_checkField {path path' : String} {field : Field} {x : Json}
    (hread : Declaration.readField path' x = .ok field) (h : l ∈ checkField r path field) :
    ∃ turns v, FieldPart x .field turns v ∧ l.1 = path ++ Turn.path turns := by
  by_cases hlist : ∃ items least most unique, field.shape = .list items least most unique
  · obtain ⟨items, least, most, unique, hs⟩ := hlist
    obtain ⟨y, hy, hitems⟩ := Declaration.items_of_readField hread hs
    obtain ⟨segment, hmember⟩ := FieldDeclaration.exists_memberAt_of_itemsOf? hy
    rw [checkField_list hs] at h
    have := FieldDeclaration.sizeOf_itemsOf?_lt hy
    obtain ⟨turns, v, hpart, hpath⟩ := exists_part_of_checkField hitems h
    refine ⟨⟨"items", segment⟩ :: turns, v, .items hmember hpart, ?_⟩
    rw [hpath, String.append_assoc]
    rfl
  · have hother : ∀ items least most unique, field.shape ≠ .list items least most unique :=
      fun items least most unique hs => hlist ⟨items, least, most, unique, hs⟩
    refine ⟨[], x, .field, ?_⟩
    rw [path_of_checkField hother h]
    exact String.append_empty.symm
termination_by sizeOf x

/-- What is found in any field is found at its path or at that of items below it. -/
theorem exists_path_of_checkField {path : String} {field : Field}
    (h : l ∈ checkField r path field) :
    ∃ turns, (∀ turn ∈ turns, turn = .plain "items") ∧ l.1 = path ++ Turn.path turns := by
  by_cases hlist : ∃ items least most unique, field.shape = .list items least most unique
  · obtain ⟨items, least, most, unique, hs⟩ := hlist
    have : sizeOf items < sizeOf field := by
      cases field
      cases hs
      simp
      omega
    rw [checkField_list hs] at h
    obtain ⟨turns, hturns, hpath⟩ := exists_path_of_checkField h
    refine ⟨.plain "items" :: turns, List.forall_mem_cons.2 ⟨rfl, hturns⟩, ?_⟩
    rw [hpath, String.append_assoc]
    rfl
  · have hother : ∀ items least most unique, field.shape ≠ .list items least most unique :=
      fun items least most unique hs => hlist ⟨items, least, most, unique, hs⟩
    refine ⟨[], List.forall_mem_nil _, ?_⟩
    rw [path_of_checkField hother h]
    exact String.append_empty.symm
termination_by sizeOf field

end Field

/-! ## Models that are registered -/

/--
Every registered model has the path of its declaration. Its own fields are those that are declared
there, and if it is cloned from others, fields that are not. All of them have plain names.
-/
structure Traced (values : List Json) (st : Registered) : Prop where
  declared : ∀ {name model}, st.registry.find? name = some model →
    ∃ (i : Nat) (value : Json) (d : Declaration),
      st.paths.lookup name = some (Declaration.pathAt i) ∧ values[i]? = some value ∧
      Declaration.read (Declaration.pathAt i) value = .ok d ∧
      ∀ e ∈ model.fields, e ∈ d.fields ∨ d.sources ≠ [] ∧ e.1 ∉ Keyed.keys d.fields
  plain : ∀ {name model}, st.registry.find? name = some model →
    ∀ e ∈ model.fields, Pointer.IsPlain e.1

/-- The models of a document are declared by objects, and their fields have plain names. -/
structure PlainDocument (document : Json) (values : List Json) : Prop where
  distinct : document.Distinct
  models : document.get? "models" = some (.arr values)
  plain : ∀ value ∈ values, PlainlyDeclared value

section Registered

variable {values : List Json} {st : Registered} {i : Nat}

theorem PlainDocument.declared (h : PlainDocument document values) (hi : values[i]? = some value) :
    value.Distinct ∧ PlainlyDeclared value :=
  have hmem := List.mem_of_getElem? hi
  ⟨Json.distinct_arr_iff.1 (h.distinct.get? h.models) _ hmem, h.plain value hmem⟩

theorem traced_empty (values : List Json) : Traced values ⟨.empty, []⟩ where
  declared h := by cases h
  plain h := by cases h

/-- The names of copied fields are those of fields of registered models. -/
theorem Traced.plain_copyFields (h : Traced values st) {sources : List String}
    {flats : List FlatModel} (hflats : sources.mapM st.registry.resolveName = .ok flats)
    {e : String × Field} (he : e ∈ Registry.copyFields flats) : Pointer.IsPlain e.1 := by
  obtain ⟨flat, hflat, he⟩ := List.mem_flatMap.1 (Keyed.mem_of_mem_ofPairs he)
  obtain ⟨e, hmem, rfl⟩ := List.mem_map.1 he
  obtain ⟨name, -, hname⟩ := exists_of_mem_mapM hflats hflat
  obtain ⟨model, hm, hresolve⟩ := bind_eq_ok.1 hname
  obtain ⟨owned, owner, howner, hkey⟩ := Registry.exists_owner_of_resolve
    (Registry.lookup_eq_ok.1 hm) hresolve (Keyed.mem_keys_of_mem hmem)
  obtain ⟨e', he', heq⟩ := List.mem_map.1 hkey
  exact heq ▸ h.plain howner e' he'

/-- A declaration that is registered is traced. -/
theorem Traced.put (h : Traced values st) (hi : values[i]? = some value) (hd : value.Distinct)
    (hvalue : PlainlyDeclared value) {d : Declaration} {r : Registry}
    (hread : Declaration.read (Declaration.pathAt i) value = .ok d)
    (hr : d.register st.registry = .ok r) :
    Traced values ⟨r, (d.name, Declaration.pathAt i) :: st.paths⟩ := by
  obtain ⟨flats, hflats, model, hname, hfields, rfl⟩ := Declaration.exists_put_of_register hr
  have hown : ∀ e ∈ model.fields,
      e ∈ d.fields ∨ e ∈ Registry.copyFields flats ∧ e.1 ∉ Keyed.keys d.fields := fun e he =>
    Keyed.mem_more_or_old Keyed.nodup_keys_ofPairs (hfields ▸ he)
  constructor
  · intro name m hm
    rw [Registry.find?_put, hname] at hm
    dsimp only
    rw [Keyed.lookup_cons]
    split at hm
    · rename_i hnew
      obtain rfl := Option.some.inj hm
      refine ⟨i, value, d, if_pos hnew, hi, hread, fun e he => (hown e he).imp_right ?_⟩
      rintro ⟨hcopy, hnot⟩
      refine ⟨fun hnone => ?_, hnot⟩
      obtain rfl : flats = [] := by
        rw [hnone] at hflats
        exact (Except.ok.inj hflats).symm
      cases hcopy
    · rename_i hold
      rw [if_neg hold]
      exact h.declared hm
  · intro name m hm e he
    rw [Registry.find?_put] at hm
    split at hm
    · obtain rfl := Option.some.inj hm
      rcases hown e he with hdeclared | ⟨hcopy, -⟩
      · obtain ⟨segment, fields, x, hmember, hx, -⟩ :=
          Declaration.exists_written_of_read hd hread hdeclared
        exact hvalue.isPlain (hvalue.refer? hmember) hx
      · exact h.plain_copyFields hflats hcopy
    · exact h.plain hm e he

theorem path_of_warnings {path : String} {d : Declaration} {l : Located}
    (h : l ∈ warnings path d) : l.1 = path := by
  unfold warnings at h
  rcases List.mem_append.1 h with h | h
  · split at h
    · rw [List.mem_singleton.1 h]
    · cases h
  · split at h
    · rw [List.mem_singleton.1 h]
    · cases h

theorem path_ofDeclarationError (e : DeclarationError) : (ofDeclarationError e).1 = e.path := by
  cases e <;> rfl

theorem Traced.checkDeclaration (h : Traced values st) (hdoc : PlainDocument document values)
    (hi : values[i]? = some value) :
    Traced values (checkDeclaration st (Declaration.pathAt i) value).1 ∧
      ∀ l ∈ (checkDeclaration st (Declaration.pathAt i) value).2, Points document l.1 := by
  obtain ⟨hd, hvalue⟩ := hdoc.declared hi
  have hself : Points document (Declaration.pathAt i) := points_of_pathAt hdoc.models hi hvalue
  unfold Lint.checkDeclaration
  cases hread : Declaration.read (Declaration.pathAt i) value with
  | error e =>
    refine ⟨h, List.forall_mem_singleton.2 ?_⟩
    obtain ⟨part, turns, v, hpart, -, hpath⟩ := Declaration.blames_of_read hd hread
    rw [path_ofDeclarationError, hpath]
    exact points_of_modelPart hdoc.models hi hvalue hpart
  | ok d =>
    dsimp only
    cases hr : d.register st.registry with
    | ok r =>
      exact ⟨h.put hi hd hvalue hread hr, fun l hl => path_of_warnings hl ▸ hself⟩
    | error e =>
      refine ⟨h, fun l hl => ?_⟩
      rcases List.mem_append.1 hl with hl | hl
      · exact path_of_warnings hl ▸ hself
      · rw [List.mem_singleton.1 hl]
        exact hself

theorem Traced.checkDeclarations (h : Traced values st) (hdoc : PlainDocument document values)
    {paired : List (String × Json)}
    (hp : ∀ e ∈ paired, ∃ i : Nat, e.1 = Declaration.pathAt i ∧ values[i]? = some e.2) :
    Traced values (checkDeclarations st paired).1 ∧
      ∀ l ∈ (checkDeclarations st paired).2, Points document l.1 := by
  induction paired generalizing st with
  | nil => exact ⟨h, List.forall_mem_nil _⟩
  | cons e rest ih =>
    obtain ⟨path, value⟩ := e
    obtain ⟨⟨i, rfl, hi⟩, hrest⟩ := List.forall_mem_cons.1 hp
    obtain ⟨hfirst, hfound⟩ := h.checkDeclaration hdoc hi
    obtain ⟨hall, hmore⟩ := ih hfirst hrest
    refine ⟨hall, fun l hl => ?_⟩
    rcases List.mem_append.1 hl with hl | hl
    · exact hfound l hl
    · exact hmore l hl

/-- What the declaration of a model does not declare is not written among its fields. -/
theorem resolve?_of_not_declared (hd : value.Distinct) (hvalue : PlainlyDeclared value)
    {path : String} {d : Declaration} (hread : Declaration.read path value = .ok d) {name : String}
    (hnot : name ∉ Keyed.keys d.fields) : value.resolve? ⟨["fields", name]⟩ = none := by
  cases value with
  | obj members =>
    show (members.lookup "fields").bind _ = none
    cases hf : members.lookup "fields" with
    | none => rfl
    | some fields =>
      rw [Option.bind_some, List.foldlM_cons, Declaration.refer?_of_not_declared hd hread hnot hf]
      rfl
  | _ => cases hvalue.object

theorem path_fieldAt (i : Nat) (name : String) (turns : List Turn) :
    Declaration.pathAt i ++ "/fields/" ++ name ++ Turn.path turns
      = Turn.path (.plain "models" :: .plain (Number.intText i) :: .plain "fields" :: .plain name
        :: turns) := by
  rw [Turn.path_models, String.append_assoc, String.append_assoc]
  exact congrArg _ ((Turn.path_fields "fields" name turns).trans String.append_assoc).symm

/-- A field that a model copies is looked for where the model is declared. -/
theorem copied_points (hdoc : PlainDocument document values) (hi : values[i]? = some value)
    {d : Declaration} (hread : Declaration.read (Declaration.pathAt i) value = .ok d)
    (hsources : d.sources ≠ []) {name : String} (hname : Pointer.IsPlain name)
    (hnot : name ∉ Keyed.keys d.fields) {turns : List Turn}
    (hturns : ∀ turn ∈ turns, turn = .plain "items") :
    Points document (Declaration.pathAt i ++ "/fields/" ++ name ++ Turn.path turns) := by
  obtain ⟨hd, hvalue⟩ := hdoc.declared hi
  have hmodel : document.resolve? ⟨["models", Number.intText i]⟩ = some value := by
    rw [Json.resolve?_cons, refer?_of_get? hdoc.models, Option.bind_some, Json.resolve?_cons,
      Json.refer?_item, hi]
    rfl
  rw [path_fieldAt]
  refine ⟨_, Turn.ofText?_path_of_plain ?_,
    .inr ⟨i, value, d, name, _, rfl, hmodel, hread, hsources, ?_⟩⟩
  · refine List.forall_mem_cons.2 ⟨isPlain_models, List.forall_mem_cons.2 ⟨isPlain_intText i, ?_⟩⟩
    refine List.forall_mem_cons.2 ⟨isPlain_fields, List.forall_mem_cons.2 ⟨hname, ?_⟩⟩
    exact fun turn ht => hturns turn ht ▸ isPlain_items
  · refine (resolve?_append document ["models", Number.intText i] ["fields", name]).trans ?_
    rw [hmodel]
    exact resolve?_of_not_declared hd hvalue hread hnot

theorem Traced.checkModel (h : Traced values st) (hdoc : PlainDocument document values)
    {name : String} {model : Model} (hm : st.registry.find? name = some model) :
    ∀ l ∈ checkModel st model, Points document l.1 := by
  intro l hl
  obtain ⟨i, value, d, hlookup, hi, hread, hown⟩ := h.declared hm
  have hpath : (st.paths.lookup model.name).getD "/" = Declaration.pathAt i := by
    rw [Registry.name_of_find? hm, hlookup]
    rfl
  obtain ⟨hd, hvalue⟩ := hdoc.declared hi
  unfold Lint.checkModel at hl
  rw [hpath] at hl
  rcases List.mem_append.1 hl with hl | hl
  · rw [path_of_ofModelError hl]
    exact points_of_pathAt hdoc.models hi hvalue
  · obtain ⟨e, he, hl⟩ := List.mem_flatMap.1 hl
    rcases hown e he with hdeclared | ⟨hsources, hnot⟩
    · obtain ⟨segment, fields, x, hmember, hx, hfield⟩ :=
        Declaration.exists_written_of_read hd hread hdeclared
      obtain ⟨turns, v, hpart, hpath⟩ := exists_part_of_checkField hfield hl
      have hpart := points_of_modelPart hdoc.models hi hvalue (.field hmember hx hpart)
      rw [Turn.path_fields, ← String.append_assoc, ← String.append_assoc, ← hpath] at hpart
      exact hpart
    · obtain ⟨turns, hturns, hpath⟩ := exists_path_of_checkField hl
      rw [hpath]
      exact copied_points hdoc hi hread hsources (h.plain hm e he) hnot hturns

/-- No object of a document that is read from a file has a key twice. -/
theorem distinct_of_ofFile {files : FileView} {path : String}
    (h : Document.ofFile files path = .ok document) : document.Distinct := by
  unfold Document.ofFile at h
  split at h
  · cases h
  · cases h
  · split at h
    · exact Json.distinct_of_read (mapError_eq_ok.1 h)
    · cases h

theorem points_of_checkDocument (hdoc : PlainDocument document values) :
    ∀ l ∈ checkDocument document, Points document l.1 := by
  intro l hl
  have hpaired := Declaration.valuesOf_eq_ok.2 ⟨values, hdoc.models, rfl⟩
  rw [checkDocument, hpaired] at hl
  have hp : ∀ e ∈ values.zipIdx.map fun e => (Declaration.pathAt e.2, e.1),
      ∃ i : Nat, e.1 = Declaration.pathAt i ∧ values[i]? = some e.2 := by
    intro e he
    obtain ⟨⟨value, i⟩, hi, rfl⟩ := List.mem_map.1 he
    exact ⟨i, rfl, List.mk_mem_zipIdx_iff_getElem?.1 hi⟩
  obtain ⟨htraced, hfound⟩ := (traced_empty values).checkDeclarations hdoc hp
  rcases List.mem_append.1 hl with hl | hl
  · exact hfound l hl
  · obtain ⟨model, hmem, hl⟩ := List.mem_flatMap.1 hl
    obtain ⟨name, hm⟩ := Registry.exists_find?_of_mem_toList hmem
    exact htraced.checkModel hdoc hm l hl

/--
**Diagnostics point into the file**, if its models are declared by objects and no field has a slash
or a tilde in its name: the path of every diagnostic reads as a pointer, and that leads into the
document unless it is that of a field that the model copies and does not declare, or goes on by name
into the declaration of a field that is written as an array. These lead nowhere.
-/
theorem lintFile_places {files : FileView} {base path : String}
    (hfile : Document.ofFile files path = .ok document)
    (hm : document.get? "models" = some (.arr values))
    (hplain : ∀ value ∈ values, PlainlyDeclared value) :
    ∀ d ∈ (lintFile files base path).diagnostics, ∃ p, Pointer.ofText? d.path = some p ∧
      ((document.resolve? p).isSome ↔ ¬(Copied document p ∨ BehindArray document p)) := by
  intro d hd
  have hdoc : PlainDocument document values := ⟨distinct_of_ofFile hfile, hm, hplain⟩
  obtain ⟨⟨place, finding⟩, hl, rfl⟩ := List.mem_map.1 hd
  rw [checkFile, hfile] at hl
  obtain ⟨p, hp, hpoints⟩ := points_of_checkDocument hdoc _ hl
  refine ⟨p, hp, ?_, fun hnot => ?_⟩
  · rintro hsome (hcopied | hbehind)
    · rw [hcopied.resolve?] at hsome
      cases hsome
    · rw [hbehind.resolve?] at hsome
      cases hsome
  · rcases hpoints with (hsome | hbehind) | hcopied
    · exact hsome
    · exact absurd (.inr hbehind) hnot
    · exact absurd (.inl hcopied) hnot

/-- Two models, one with a field for a model that there is not, and one that copies this field. -/
def strays : List Json :=
  [.obj [("name", .str "A"), ("description", .str ""),
      ("fields", .obj [("x", Registry.declared "nested" [("model", .str "Z")])])],
    .obj [("name", .str "B"), ("description", .str ""), ("clone", .arr [.str "A"])]]

/-- The document that declares them. -/
def straysDocument : Json := .obj [("models", .arr strays)]

/-- A view in which every path is that of a file with the document. -/
def straysFiles : FileView where
  find _ := .file straysDocument.compact.toUTF8
  below _ := []

theorem ofFile_strays (path : String) : Document.ofFile straysFiles path = .ok straysDocument := by
  refine Json.ofFile_compact rfl ?_
  simp [straysDocument, strays, Registry.declared, Json.nestingLimit]

theorem plainlyDeclared_strays : ∀ value ∈ strays, PlainlyDeclared value := by
  refine List.forall_mem_cons.2 ⟨⟨rfl, ?_⟩, List.forall_mem_singleton.2 ⟨rfl, ?_⟩⟩
  · rintro fields h
    cases h
    decide
  · rintro fields h
    cases h

/-- The path of the copied field tells where its model is declared, and not where the field is. -/
theorem paths_strays (base path : String) :
    (lintFile straysFiles base path).diagnostics.map (·.path)
      = ["/models/0/fields/x", "/models/1/fields/x"] := by
  have hfound : (checkDocument straysDocument).map Prod.fst
      = ["/models/0/fields/x", "/models/1/fields/x"] := by
    cbv
  rw [lintFile, checkFile, ofFile_strays, ← hfound]
  exact List.map_map ..

/-- The diagnostic of the field that is declared leads to it; the other is of a field copied. -/
theorem lintFile_places_strays :
    let declared : Pointer := ⟨["models", "0", "fields", "x"]⟩
    let copied : Pointer := ⟨["models", "1", "fields", "x"]⟩
    Document.ofFile straysFiles "a.json" = .ok straysDocument ∧
      straysDocument.get? "models" = some (.arr strays) ∧
      (∀ value ∈ strays, PlainlyDeclared value) ∧
      (lintFile straysFiles "" "a.json").diagnostics.map (Pointer.ofText? ·.path)
        = [some declared, some copied] ∧
      (straysDocument.resolve? declared).isSome ∧
      ¬(Copied straysDocument declared ∨ BehindArray straysDocument declared) ∧
      (Copied straysDocument copied ∨ BehindArray straysDocument copied) := by
  intro declared copied
  have hread : (lintFile straysFiles "" "a.json").diagnostics.map (Pointer.ofText? ·.path)
      = [some declared, some copied] := by
    have hpaths := congrArg (List.map Pointer.ofText?) (paths_strays "" "a.json")
    rw [List.map_map] at hpaths
    refine hpaths.trans ?_
    cbv
  have hplaces {p : Pointer} (hp : some p ∈ [some declared, some copied]) :
      (straysDocument.resolve? p).isSome ↔
        ¬(Copied straysDocument p ∨ BehindArray straysDocument p) := by
    rw [← hread] at hp
    obtain ⟨d, hd, hpath⟩ := List.mem_map.1 hp
    obtain ⟨q, hq, hiff⟩ :=
      lintFile_places (ofFile_strays "a.json") rfl plainlyDeclared_strays d hd
    obtain rfl := Option.some.inj (hpath.symm.trans hq)
    exact hiff
  have hfound : (straysDocument.resolve? declared).isSome := by cbv
  have hlost : straysDocument.resolve? copied = none := by cbv
  refine ⟨ofFile_strays "a.json", rfl, plainlyDeclared_strays, hread, hfound,
    (hplaces List.mem_cons_self).1 hfound, ?_⟩
  by_contra hnot
  have hsome := (hplaces (List.mem_cons_of_mem _ List.mem_cons_self)).2 hnot
  rw [hlost] at hsome
  cases hsome

/-- The models are declared by objects and their field has a plain name, but a diagnostic misses. -/
theorem lintFile_places_nowhere :
    Document.ofFile straysFiles "a.json" = .ok straysDocument ∧
      straysDocument.get? "models" = some (.arr strays) ∧
      (∀ value ∈ strays, PlainlyDeclared value) ∧
      ∃ d ∈ (lintFile straysFiles "" "a.json").diagnostics, ∃ p, Pointer.ofText? d.path = some p ∧
        straysDocument.resolve? p = none := by
  refine ⟨ofFile_strays "a.json", rfl, plainlyDeclared_strays, ?_⟩
  have hmem : "/models/1/fields/x"
      ∈ (lintFile straysFiles "" "a.json").diagnostics.map (·.path) := by
    rw [paths_strays]
    exact List.mem_cons_of_mem _ List.mem_cons_self
  obtain ⟨d, hd, hpath⟩ := List.mem_map.1 hmem
  refine ⟨d, hd, ⟨["models", "1", "fields", "x"]⟩, ?_, ?_⟩
  · rw [hpath]
    cbv
  · cbv

end Registered

end Lint

end FieldMask
