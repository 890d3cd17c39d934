import FieldMask.Proofs.Declaration.Sound
import FieldMask.Proofs.Marshal.Steps
import FieldMask.Proofs.Relocation
import FieldMask.Proofs.Pointer.Decoding
import Mathlib

/-!
# Places in the errors of marshalling

The place in an error is that of a part of the value, and marshalling tells every part at which
place it stands: models and fields, items, and masks that are applied to models on the way. A mask
that an opaque field keeps for its values is not told. It is applied to a value as if this stood at
the root, and the place in its error stays as it is.

So an array fails as its first item that fails does, with the place moved below the index of the
item, unless the error is that of a mask kept with an opaque field (`marshal_arr_error`).
-/

namespace FieldMask

/-! ## Masked models -/

theorem Field.relocates_narrow {Fixed : MaskError → Prop} {selection : List Selector}
    {below : Pointer → Target → Except MaskError Model}
    (hb : ∀ target, Relocates MaskError.below (fun _ => True) Fixed fun p => below p target) :
    (field : Field) →
      Relocates MaskError.below (fun _ => True) Fixed fun p => field.narrow selection p (below p)
  | { shape := .scalar kind, .. } => by
    refine Relocates.congr ?_ fun p => narrow_scalar rfl
    split
    · exact relocates_ok _
    · refine (relocates_error (e := .inconsistent ⟨.root⟩) trivial).congr fun p => ?_
      rw [MaskError.below, Pointer.below_root]
  | { shape := .list items least most unique, .. } =>
    ((relocates_narrow hb items).map _).congr fun p => narrow_list rfl
  | { shape := .nested target asList, .. } =>
    ((hb target).map _).congr fun p => narrow_nested rfl
  | { shape := .polymorph mapping, .. } => (relocates_ok _).congr fun p => narrow_polymorph rfl

namespace Registry

variable {r : Registry} {skipMissing : Bool} {Fixed : MaskError → Prop}

/-- The first segment of the place in the error is the name of one of the fields. -/
abbrev AtField (fields : Fields) (e : MaskError) : Prop := Heads (· ∈ Keyed.keys fields) e.place?

theorem relocates_liftModel {α : Type} {Moved : MaskError → Prop} (x : Except ModelError α)
    (h : ∀ e, Moved (.model e)) : Relocates MaskError.below Moved Fixed fun _ => liftModel x := by
  refine relocates_const _ fun e he => ?_
  obtain ⟨e, -, rfl⟩ := mapError_eq_error.1 he
  exact ⟨h e, fun _ => rfl⟩

theorem relocates_pickField {flat : FlatModel} {picked : Fields} {s : Selector}
    (hb : ∀ name children, s = .nested name children → ∀ target,
      Relocates MaskError.below (fun _ => True) Fixed
        fun p => r.maskTarget skipMissing children p target) :
    Relocates MaskError.below (AtField flat.fields) Fixed
      fun p => r.pickField skipMissing p flat picked s := by
  by_cases hw : s = .wildcard
  · subst hw
    exact (relocates_ok picked).congr fun p => pickField_wildcard
  · refine Relocates.congr ?_ fun p => pickField_eq hw
    cases hf : flat.find? s.name with
    | none => exact relocates_ok _
    | some field =>
      refine Relocates.map ?_ _
      cases s with
      | wildcard => exact absurd rfl hw
      | leaf name => exact relocates_ok field
      | nested name children =>
        refine (Field.relocates_narrow (hb name children rfl) field).child
          (fun p e => MaskError.below_child p name e) fun e _ => ?_
        rw [AtField, MaskError.place?_below]
        exact heads_below_child (Keyed.mem_keys_of_mem (Keyed.mem_of_lookup hf)) _

/-- Masking a flat model relocates: the place in an error begins with the name of a field. -/
theorem relocates_maskFlat (selection : List Selector) (flat : FlatModel) :
    Relocates MaskError.below (AtField flat.fields) Fixed
      fun p => r.maskFlat skipMissing selection p flat := by
  refine Relocates.map ?_ _
  refine Relocates.congr (relocates_foldlM [] fun picked s hs => ?_) fun p => pickFields_eq_foldlM
  refine relocates_pickField fun name children hnested target => ?_
  have := Selector.sizeOf_children_lt (hnested ▸ hs)
  refine (relocates_liftModel _ fun _ => trivial).bind fun below _ => ?_
  exact (relocates_maskFlat children below).imp (fun _ _ => trivial) fun _ h => h
termination_by sizeOf selection

/-- A mask that skips missing names picks fields of the flat model alone. -/
theorem keys_maskFlat_subset {selection : List Selector} {place : Pointer} {flat : FlatModel}
    {masked : Model} (h : r.maskFlat true selection place flat = .ok masked) :
    ∀ e ∈ masked.fields, e.1 ∈ Keyed.keys flat.fields := by
  obtain ⟨picked, hp, rfl⟩ := maskFlat_eq_ok.1 h
  intro e he
  rcases mem_addRest he with he | he
  · rw [pickFields_eq_foldlM] at hp
    refine foldlM_induct (P := fun picked => ∀ e ∈ picked, e.1 ∈ Keyed.keys flat.fields)
      (fun picked s _ out ih hp => ?_) (List.forall_mem_nil _) hp e he
    by_cases hw : s = .wildcard
    · rw [hw, pickField_wildcard] at hp
      rwa [← Except.ok.inj hp]
    · rw [pickField_eq hw] at hp
      split at hp
      · rwa [← Except.ok.inj hp]
      · rename_i field hfield
        obtain ⟨narrowed, -, hp⟩ := bind_eq_ok.1 hp
        obtain rfl := pure_eq_ok.1 hp
        intro e he
        rcases Keyed.mem_put he with rfl | he
        · exact Keyed.mem_keys_of_mem (m := (s.name, field)) (Keyed.mem_of_lookup hfield)
        · exact ih e he
  · exact Keyed.mem_keys_of_mem he

end Registry

/-! ## Parts of values -/

namespace Json

/-- The value is the whole, or it is inside of it. -/
inductive IsPart : Json → Json → Prop
  | whole {value : Json} : IsPart value value
  | item {part x : Json} {items : List Json} (hx : x ∈ items) (h : IsPart part x) :
      IsPart part (.arr items)
  | member {part x : Json} {key : String} {members : Members} (hx : (key, x) ∈ members)
      (h : IsPart part x) : IsPart part (.obj members)

theorem IsPart.trans {part value whole : Json} (h : part.IsPart value) (hv : value.IsPart whole) :
    part.IsPart whole := by
  induction hv with
  | whole => exact h
  | item hx _ ih => exact .item hx ih
  | member hx _ ih => exact .member hx ih

theorem isPart_of_step? {value part : Json} {segment : String}
    (h : value.step? segment = some part) : part.IsPart value := by
  cases value with
  | obj members => exact .member (Keyed.mem_of_lookup h) .whole
  | arr items =>
    obtain ⟨i, -, hi⟩ := Option.bind_eq_some_iff.1 h
    exact .item (List.mem_of_getElem? hi) .whole
  | _ => cases h

theorem isPart_of_foldlM_step? {segments : List String} {value part : Json}
    (h : segments.foldlM step? value = some part) : part.IsPart value := by
  induction segments generalizing value with
  | nil => exact Option.some.inj h ▸ .whole
  | cons segment rest ih =>
    rw [List.foldlM_cons] at h
    obtain ⟨x, hx, h⟩ := Option.bind_eq_some_iff.1 h
    exact (ih h).trans (isPart_of_step? hx)

theorem isPart_of_atPath? {value part : Json} {key : String}
    (h : atPath? value.membersOrNone key = some part) : part.IsPart value := by
  cases value with
  | obj members =>
    have h : atPath? members key = some part := h
    unfold atPath? at h
    split at h
    · rename_i hl
      exact .member (Keyed.mem_of_lookup (Option.some.inj h ▸ hl)) .whole
    · split at h
      · cases h
      · obtain ⟨x, hx, h⟩ := Option.bind_eq_some_iff.1 h
        exact .member (Keyed.mem_of_lookup hx) (isPart_of_foldlM_step? h)
  | _ =>
    have h : atPath? [] key = some part := h
    rw [atPath?_nil] at h
    cases h

end Json

/-! ## Fields that values come to -/

mutual

/-- A value of the field is shaped to the other field, at the latest when it comes down to it. -/
inductive Field.Meets (r : Registry) : Field → Field → Prop
  | self {field : Field} : Field.Meets r field field
  | items {field items other : Field} {least most : Option UInt64} {unique : Bool}
      (h : field.shape = .list items least most unique) (hi : Field.Meets r items other) :
      Field.Meets r field other
  | nested {field other : Field} {target : Target} {asList : Bool} {m : Model}
      (h : field.shape = .nested target asList) (ht : Marshal.targetModel r target = .ok m)
      (hm : Model.Meets r m none other) : Field.Meets r field other
  | polymorph {field other : Field} {mapping : NameMap String} {tag name : String} {m : Model}
      (h : field.shape = .polymorph mapping) (ht : mapping.find? tag = some name)
      (hr : r.find? name = some m) (hm : Model.Meets r m field.mask other) :
      Field.Meets r field other

/-- A value of the model, with the mask if there is one, is shaped to the field on the way down. -/
inductive Model.Meets (r : Registry) : Model → Option Mask → Field → Prop
  | field {m : Model} {mask : Option Mask} {flat : FlatModel} {place : Pointer} {fields : Fields}
      {e : String × Field} {other : Field} (hflat : r.resolve m = .ok flat)
      (hout : Marshal.outputFields r flat mask place = .ok fields) (he : e ∈ fields)
      (h : Field.Meets r e.2 other) : Model.Meets r m mask other

end

namespace Marshal

/--
The error is that of a mask which an opaque field keeps, applied to a part of the value. The field
is one of those that the value comes to.
-/
def KeptClash (meets : Field → Prop) (value : Json) (e : MarshalError) : Prop :=
  ∃ field kind mask part clash, meets field ∧ field.shape = .scalar kind ∧ kind.isOpaque = true ∧
    field.mask = some mask ∧ Json.IsPart part value ∧ mask.apply true part = .error clash ∧
    e = .mask (.inconsistent clash)

variable {r : Registry} {skipNone : Bool} {P : String → Prop} {Fixed : MarshalError → Prop}
  {meets meets' : Field → Prop} {value part : Json}

theorem KeptClash.imp {e : MarshalError} (h : KeptClash meets part e)
    (hm : ∀ field, meets field → meets' field) (hp : part.IsPart value) :
    KeptClash meets' value e := by
  obtain ⟨field, kind, mask, inner, clash, hfield, hs, ho, hmask, hinner, hclash, he⟩ := h
  exact ⟨field, kind, mask, inner, clash, hm field hfield, hs, ho, hmask, hinner.trans hp,
    hclash, he⟩

/--
The computation relocates: the place in an error begins with a segment of the property, unless the
error stays as it is.
-/
abbrev RelocatesAt {α : Type} (P : String → Prop) (Fixed : MarshalError → Prop)
    (f : Pointer → Result α) : Prop :=
  Relocates MarshalError.below (fun e => Heads P e.place?) Fixed f

/-- An error right at the place itself. -/
theorem relocates_invalidValue {α : Type} (expected : Expectation) (actual : JsonType) :
    RelocatesAt P Fixed fun p => (.error (.invalidValue p expected actual) : Result α) := by
  refine (relocates_error (e := .invalidValue .root expected actual) heads_root).congr fun p => ?_
  rw [MarshalError.below, Pointer.below_root]

theorem relocates_liftModel {α : Type} (x : Except ModelError α) :
    RelocatesAt P Fixed fun _ => liftModel x := by
  refine relocates_const _ fun e he => ?_
  obtain ⟨e, -, rfl⟩ := mapError_eq_error.1 he
  exact ⟨heads_none, fun _ => rfl⟩

/-- A computation at a child has places that begin with the name of the child. -/
theorem relocates_child {α : Type} {f : Pointer → Result α} {name : String}
    (h : RelocatesAt (fun _ => True) Fixed f) (hP : P name) :
    RelocatesAt P Fixed fun p => f (p.child name) := by
  refine h.child (fun p e => MarshalError.below_child p name e) fun e _ => ?_
  rw [MarshalError.place?_below]
  exact heads_below_child hP _

/-! ## Scalars and fields without a value -/

theorem relocates_coerce (kind : Kind) (value : Json) :
    RelocatesAt P Fixed fun p => coerce kind p value := by
  unfold coerce
  cases kind.coerce value with
  | ok out => exact relocates_ok out
  | error expected => exact relocates_invalidValue expected value.type

theorem relocates_absent (field : Field) : RelocatesAt P Fixed fun p => absent field p := by
  unfold absent
  split
  · exact relocates_coerce _ _
  · exact relocates_ok _
  · exact relocates_ok _

/-- The mask of an opaque field is not told the place. -/
theorem relocates_scalar {field : Field} {kind : Kind} (h : field.shape = .scalar kind)
    (value : Json) :
    RelocatesAt P (KeptClash (field.Meets r) value) fun p => scalar field kind p value := by
  unfold scalar
  split
  · rename_i ho
    cases hmask : field.mask with
    | none => exact relocates_ok value
    | some mask =>
      dsimp only
      cases hclash : mask.apply true value with
      | ok out => exact relocates_ok out
      | error clash =>
        exact relocates_fixed
          ⟨field, kind, mask, value, clash, .self, h, ho, hmask, .whole, hclash, rfl⟩
  · exact relocates_coerce kind value

/-! ## Models that are looked up -/

theorem relocates_outputFields {flat : FlatModel} (mask : Option Mask)
    (hP : ∀ key ∈ Keyed.keys flat.fields, P key) :
    RelocatesAt P Fixed fun p => outputFields r flat mask p := by
  unfold outputFields
  split
  · rename_i mask _
    have hmask : Relocates MaskError.below (Registry.AtField flat.fields) (fun _ => False)
        fun p => r.maskFlat true mask.selectors p flat :=
      Registry.relocates_maskFlat mask.selectors flat
    refine Relocates.map ?_ Model.fields
    refine hmask.mapError (fun p e => rfl) (fun e he p hp name hname => ?_) nofun
    exact hP name (he p hp name hname)
  · exact relocates_ok _

/-- The fields that come out have names of the flat model. -/
theorem mem_keys_of_outputFields {flat : FlatModel} {mask : Option Mask} {place : Pointer}
    {fields : Fields} (h : outputFields r flat mask place = .ok fields) :
    ∀ e ∈ fields, e.1 ∈ Keyed.keys flat.fields := by
  unfold outputFields at h
  split at h
  · obtain ⟨masked, hmasked, h⟩ := bind_eq_ok.1 h
    obtain rfl := pure_eq_ok.1 h
    exact Registry.keys_maskFlat_subset (mapError_eq_ok.1 hmasked)
  · obtain rfl := Except.ok.inj h
    exact fun e he => Keyed.mem_keys_of_mem he

theorem relocates_targetModel (target : Target) :
    RelocatesAt P Fixed fun _ => targetModel r target := by
  cases target with
  | named name => exact relocates_liftModel _
  | masked m => exact relocates_ok m

theorem relocates_matchedModel (mapping : NameMap String) (value : Json) :
    RelocatesAt P Fixed fun p => matchedModel r mapping p value := by
  refine (relocates_liftModel _).bind fun ancestor _ => ?_
  refine (relocates_liftModel _).bind fun flat _ => ?_
  dsimp only
  split
  · exact relocates_liftModel _
  · refine (relocates_error (e := .unmatchedType .root (tagOf flat value)) heads_root).congr
      fun p => ?_
    rw [MarshalError.below, Pointer.below_root]
    rfl

/-! ## Values -/

mutual

/-- **Marshalling relocates**, but for the masks that opaque fields keep. -/
theorem relocates_model {P : String → Prop} {m : Model}
    (hitem : ∀ i : Nat, P (Number.intText i))
    (hname : ∀ flat, r.resolve m = .ok flat → ∀ key ∈ Keyed.keys flat.fields, P key)
    (mask : Option Mask) (value : Json) :
    RelocatesAt P (KeptClash (m.Meets r mask) value) fun p => model r skipNone m mask p value := by
  rcases form_cases value with ⟨items, rfl⟩ | ho | hbasic
  · refine Relocates.congr (Relocates.map (relocates_mapM (l := items.zipIdx) (g := fun p x =>
      model r skipNone m mask (p.item x.2) x.1) fun x hx => ?_) Json.arr) fun p => by
        rw [model_arr, modelItems_eq]
    have := sizeOf_item_lt hx
    refine (relocates_child (relocates_model (fun _ => trivial) (fun _ _ _ _ => trivial) mask x.1)
      (hitem x.2)).imp (fun _ h => h) fun e he => ?_
    exact he.imp (fun _ h => h) (.item (List.fst_mem_of_mem_zipIdx hx) .whole)
  · refine Relocates.congr ?_ fun p => model_object ho
    refine (relocates_liftModel _).bind fun flat hflat => ?_
    obtain ⟨-, hflat⟩ := hflat
    have hflat := mapError_eq_ok.1 hflat
    refine (relocates_outputFields mask (hname flat hflat)).bind fun fields hfields => ?_
    obtain ⟨place, hfields⟩ := hfields
    refine Relocates.map (relocates_mapM fun e he => Relocates.map ?_ (Prod.mk e.1)) _
    have hP := hname flat hflat e.1 (mem_keys_of_outputFields hfields e he)
    cases hd : e.2.discriminator with
    | true => exact (relocates_ok _).congr fun p => output_of_discriminator hd
    | false =>
      cases hv : Json.atPath? value.membersOrNone (sourceOf e.1 e.2) with
      | none =>
        exact (relocates_child (relocates_absent e.2) hP).congr fun p => output_of_none hd hv
      | some v =>
        have := Json.sizeOf_atPath?_membersOrNone_lt hv
        refine ((relocates_child (relocates_fieldValue e.2 v) hP).congr
          fun p => output_of_some hd hv).imp (fun _ h => h) fun error he' => ?_
        exact he'.imp (fun _ h => .field hflat hfields he h) (Json.isPart_of_atPath? hv)
  · exact (relocates_invalidValue .object value.type).congr fun p => model_basic hbasic
termination_by (sizeOf value, 0)

theorem relocates_fieldValue (field : Field) (value : Json) :
    RelocatesAt (fun _ => True) (KeptClash (field.Meets r) value)
      fun p => fieldValue r skipNone field p value := by
  by_cases hv : value = .null
  · rw [hv]
    exact (relocates_absent field).congr fun p => fieldValue_null
  · cases hs : field.shape with
    | scalar kind => exact (relocates_scalar hs value).congr fun p => fieldValue_scalar hv hs
    | list items least most unique =>
      by_cases ha : ∃ values, value = .arr values
      · obtain ⟨values, rfl⟩ := ha
        refine Relocates.congr (Relocates.map (relocates_mapM (l := values.zipIdx) (g := fun p x =>
          fieldValue r skipNone items (p.item x.2) x.1) fun x hx => ?_) Json.arr) fun p => by
            rw [fieldValue_list hs, fieldItems_eq]
        have := sizeOf_item_lt hx
        refine (relocates_child (relocates_fieldValue items x.1) trivial).imp (fun _ h => h)
          fun e he => ?_
        exact he.imp (fun _ h => .items hs h) (.item (List.fst_mem_of_mem_zipIdx hx) .whole)
      · exact (relocates_invalidValue .array value.type).congr
          fun p => fieldValue_list_of_not_arr hv (fun values h => ha ⟨values, h⟩) hs
    | nested target asList =>
      refine Relocates.congr ?_ fun p => fieldValue_nested hv hs
      refine (relocates_targetModel target).bind fun m hm => ?_
      obtain ⟨-, ht⟩ := hm
      split
      · exact relocates_invalidValue .array value.type
      · refine (relocates_model (fun _ => trivial) (fun _ _ _ _ => trivial) none value).imp
          (fun _ h => h) fun e he => ?_
        exact he.imp (fun _ h => .nested hs ht h) .whole
    | polymorph mapping =>
      refine Relocates.congr ?_ fun p => fieldValue_polymorph hv hs
      refine (relocates_matchedModel mapping value).bind fun m hm => ?_
      obtain ⟨place, hm⟩ := hm
      obtain ⟨tag, name, htag, hname⟩ := exists_find?_of_matchedModel hm
      refine (relocates_model (fun _ => trivial) (fun _ _ _ _ => trivial) field.mask value).imp
        (fun _ h => h) fun e he => ?_
      exact he.imp (fun _ h => .polymorph hs htag hname h) .whole
termination_by (sizeOf value, 1)

end

end Marshal

/-! ## Paths -/

/-- The path that the error tells, if it has a place. -/
def MarshalError.path? (e : MarshalError) : Option String := e.place?.map Pointer.shown

/-- A path in an item as one in the array: the index stands before it, and alone for the root. -/
def pathInItem (index : Nat) (path : String) : String :=
  if path = "/" then "/" ++ Number.intText index else "/" ++ Number.intText index ++ path

namespace Pointer

theorem shown_eq_text {p : Pointer} (h : p.segments ≠ []) : p.shown = p.text :=
  if_neg (by simpa using h)

theorem text_below (front p : Pointer) : (front.below p).text = front.text ++ p.text := by
  refine String.toList_inj.1 ?_
  rw [String.toList_append, text, text, text, toList_foldl_join, toList_foldl_join,
    toList_foldl_join, below, List.flatMap_append, String.toList_empty, List.nil_append,
    List.nil_append, List.nil_append]

theorem text_item_root (index : Nat) : (item root index).text = "/" ++ Number.intText index := by
  show join "" (Number.intText index) = _
  rw [join, escape_eq_self_iff.2 (isPlain_intText _), String.empty_append]

/-- Only the root is shown as a single slash, but for a member with the empty name. -/
theorem shown_ne_slash {first : String} {rest : List String} (h : first ≠ "") :
    shown ⟨first :: rest⟩ ≠ "/" := by
  intro heq
  have htext : text ⟨first :: rest⟩ = text ⟨[""]⟩ := by
    rw [← shown_eq_text (List.cons_ne_nil _ _), heq]
    decide
  exact h (List.cons.inj (congrArg segments (text_injective htext))).1

theorem shown_below_item {index : Nat} {p : Pointer} (h : Heads (· ≠ "") (some p)) :
    ((item root index).below p).shown = pathInItem index p.shown := by
  rw [shown_eq_text (p := (item root index).below p) (List.cons_ne_nil _ _), text_below,
    text_item_root, pathInItem]
  obtain ⟨segments⟩ := p
  cases segments with
  | nil =>
    rw [if_pos (show shown ⟨[]⟩ = "/" from rfl)]
    exact String.append_empty
  | cons first rest =>
    rw [if_neg (shown_ne_slash (h _ rfl first rfl)), shown_eq_text (List.cons_ne_nil _ _)]

end Pointer

theorem MarshalError.path?_below_item {e : MarshalError} (h : Heads (· ≠ "") e.place?)
    (index : Nat) :
    (e.below (.item .root index)).path? = e.path?.map (pathInItem index) := by
  rw [path?, path?, place?_below]
  cases hp : e.place? with
  | none => rfl
  | some p => exact congrArg some (Pointer.shown_below_item (hp ▸ h))

/-! ## Arrays -/

/-- No field of a registered model has the empty name. -/
def Registry.FieldsNamed (r : Registry) : Prop :=
  ∀ model ∈ r.toList, ∀ e ∈ model.fields, e.1 ≠ ""

instance (r : Registry) : Decidable r.FieldsNamed :=
  inferInstanceAs (Decidable (∀ model ∈ r.toList, ∀ e ∈ model.fields, e.1 ≠ ""))

section Array

variable {r : Registry} {options : MarshalOptions} {name : String} {m : Model} {value : Json}

theorem Registry.FieldsNamed.ne_empty_of_resolve (h : r.FieldsNamed) (hm : r.find? name = some m)
    {flat : FlatModel} (hflat : r.resolve m = .ok flat) :
    ∀ key ∈ Keyed.keys flat.fields, key ≠ "" := by
  intro key hkey
  obtain ⟨owned, owner, howner, hkey⟩ := exists_owner_of_resolve hm hflat hkey
  obtain ⟨e, he, rfl⟩ := List.mem_map.1 hkey
  exact h owner (mem_toList_of_find? howner) e he

/-- What the options make of an outcome: the envelope, if there is one, is put around it. -/
def MarshalOptions.wrap (options : MarshalOptions) (out : Json) : Json :=
  match options.envelope with
  | some key => .obj [(key, out)]
  | none => out

/-- To marshal against a registered model is to marshal with the model and to wrap the outcome. -/
theorem marshal_eq (hm : r.find? name = some m) :
    marshal r options name value =
      (Marshal.model r options.skipNone m options.mask .root value).map options.wrap := by
  rw [marshal, Registry.lookup_eq_ok.2 hm, Marshal.liftModel_ok, bind_ok]
  cases Marshal.model r options.skipNone m options.mask .root value <;> rfl

theorem marshal_eq_error (hm : r.find? name = some m) {e : MarshalError} :
    marshal r options name value = .error e ↔
      Marshal.model r options.skipNone m options.mask .root value = .error e := by
  rw [marshal_eq hm]
  cases Marshal.model r options.skipNone m options.mask .root value with
  | ok out => exact ⟨nofun, nofun⟩
  | error e' => exact Iff.rfl

theorem exists_marshal_eq_ok (hm : r.find? name = some m) {out : Json}
    (h : Marshal.model r options.skipNone m options.mask .root value = .ok out) :
    ∃ out, marshal r options name value = .ok out := by
  rw [marshal_eq hm, h]
  exact ⟨_, rfl⟩

/-- Marshalling against a registered model fails alike at every place, but for kept masks. -/
theorem marshal_relocates (hn : r.FieldsNamed) (hm : r.find? name = some m) (value : Json) :
    Marshal.RelocatesAt (· ≠ "") (Marshal.KeptClash (m.Meets r options.mask) value)
      fun p => Marshal.model r options.skipNone m options.mask p value :=
  Marshal.relocates_model intText_ne_empty (fun _ hflat => hn.ne_empty_of_resolve hm hflat)
    options.mask value

/--
**An array fails as its first item that fails does**: in the same error, whose path has the index of
the item before it. The one exception is the error of a mask that is kept with an opaque field which
the item comes to. Its path is that of the item as it stands.
-/
theorem marshal_arr_error (hn : r.FieldsNamed) (hm : r.find? name = some m) {values : List Json}
    {e : MarshalError} (h : marshal r options name (.arr values) = .error e) :
    ∃ before value after e', values = before ++ value :: after ∧
      (∀ other ∈ before, ∃ out, marshal r options name other = .ok out) ∧
      marshal r options name value = .error e' ∧
      ((e = e'.below (.item .root before.length) ∧
          e.path? = e'.path?.map (pathInItem before.length)) ∨
        (e = e' ∧ Marshal.KeptClash (m.Meets r options.mask) value e)) := by
  rw [marshal_eq_error hm, Marshal.model_arr, bind_eq_error] at h
  replace h := h.resolve_right fun ⟨_, _, h⟩ => nomatch h
  rw [Marshal.modelItems_eq] at h
  obtain ⟨before, value, after, rfl, hbefore, herror⟩ := exists_of_mapM_zipIdx_eq_error h
  rw [Nat.zero_add] at herror
  have hgood : ∀ other ∈ before, ∃ out, marshal r options name other = .ok out := by
    intro other hother
    obtain ⟨i, out, hout⟩ := hbefore other hother
    exact exists_marshal_eq_ok hm ((marshal_relocates hn hm other).eq_ok hout .root)
  rcases marshal_relocates hn hm value with ⟨out, hat⟩ | ⟨e', he', hat⟩ | ⟨e', he', hat⟩
  · cases herror.symm.trans (hat _)
  · obtain rfl := Except.error.inj (herror.symm.trans (hat _))
    have hroot := hat .root
    rw [MarshalError.below_root] at hroot
    exact ⟨before, value, after, e', rfl, hgood, (marshal_eq_error hm).2 hroot,
      .inl ⟨rfl, MarshalError.path?_below_item he' _⟩⟩
  · obtain rfl := Except.error.inj (herror.symm.trans (hat _))
    exact ⟨before, value, after, e, rfl, hgood, (marshal_eq_error hm).2 (hat _),
      .inr ⟨rfl, he'⟩⟩

/-- The second keeper has a list in place of a name. -/
theorem marshal_arr_error_menagerie :
    let good : Json := .obj [("name", .str "Ann")]
    let bad : Json := .obj [("name", .arr [])]
    ∃ r m e, Registry.load Registry.menagerie = .ok r ∧ r.FieldsNamed ∧
      r.find? "Keeper" = some m ∧ marshal r {} "Keeper" (.arr [good, bad]) = .error e ∧
      e.path? = some "/1/name" ∧
      ∃ before value after e', [good, bad] = before ++ value :: after ∧
        (∀ other ∈ before, ∃ out, marshal r {} "Keeper" other = .ok out) ∧
        marshal r {} "Keeper" value = .error e' ∧
        ((e = e'.below (.item .root before.length) ∧
            e.path? = e'.path?.map (pathInItem before.length)) ∨
          (e = e' ∧ Marshal.KeptClash (m.Meets r none) value e)) := by
  intro good bad
  have h : ((Registry.load Registry.menagerie).toOption.any fun r =>
      decide r.FieldsNamed && (r.find? "Keeper").any fun _ =>
        (failure? (marshal r {} "Keeper" (.arr [good, bad]))).any fun e =>
          e.path? = some "/1/name") = true := by
    cbv
  obtain ⟨r, hl, h⟩ := exists_of_any_toOption h
  obtain ⟨hn, h⟩ := Bool.and_eq_true_iff.1 h
  have hn := of_decide_eq_true hn
  obtain ⟨m, hm, h⟩ := (Option.any_eq_true _ _).1 h
  obtain ⟨e, he, h⟩ := exists_of_any_failure? h
  exact ⟨r, m, e, hl, hn, hm, he, of_decide_eq_true h, marshal_arr_error hn hm he⟩

end Array

/-- A model with an opaque field that keeps a mask. -/
def Registry.desk : Json := .obj [("models", .arr [.obj [("name", .str "Desk"), ("fields",
  .obj [("tray", declared "raw" [("mask", .str "pen\x7bcap\x7d")])])]])]

/-- The error of a mask that an opaque field keeps is the same in an array, at the same path. -/
theorem marshal_arr_error_unmoved :
    let item : Json := .obj [("tray", .obj [("pen", .str "blue")])]
    ∃ r e, Registry.load Registry.desk = .ok r ∧ r.FieldsNamed ∧
      marshal r {} "Desk" item = .error e ∧ marshal r {} "Desk" (.arr [item]) = .error e ∧
      e.path? = some "/pen" ∧ e.path? ≠ e.path?.map (pathInItem 0) := by
  intro item
  have h : ((Registry.load Registry.desk).toOption.any fun r => decide r.FieldsNamed &&
      (failure? (marshal r {} "Desk" item)).any fun e =>
        (failure? (marshal r {} "Desk" (.arr [item]))).any fun e' =>
          e' = e && e.path? = some "/pen") = true := by
    cbv
  obtain ⟨r, hl, h⟩ := exists_of_any_toOption h
  obtain ⟨hn, h⟩ := Bool.and_eq_true_iff.1 h
  obtain ⟨e, he, h⟩ := exists_of_any_failure? h
  obtain ⟨e', he', h⟩ := exists_of_any_failure? h
  obtain ⟨heq, hpath⟩ := Bool.and_eq_true_iff.1 h
  obtain rfl := of_decide_eq_true heq
  have hpath := of_decide_eq_true hpath
  refine ⟨r, e', hl, of_decide_eq_true hn, he, he', hpath, ?_⟩
  rw [hpath]
  decide +kernel

end FieldMask
