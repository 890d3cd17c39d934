import FieldMask.Proofs.Marshal.Tasks
import FieldMask.Proofs.Mask.Again
import FieldMask.Proofs.Model.Steady

/-!
# Marshalling again

What comes out of a model with steady fields comes out of it again as it is
(`marshal_idempotent`). The second run reads under the names of the fields what the first one wrote:
names of models, which are not looked at, values in the form of their kinds, which coercion leaves
as they are, values of opaque fields, of which a mask takes the same parts again, and arrays and
objects of such. A null is what comes out for a field without a value and a default, and it counts
as missing again.
-/

namespace FieldMask

/-- The fields that come out for the model, but for discriminators, are steady. -/
def Model.Steady (r : Registry) (m : Model) : Prop :=
  ∀ fields, Marshal.fieldsOf r m none = .ok fields → ∀ e ∈ fields, e.2.discriminator = false →
    e.2.Steady r

/-- All registered models are steady. -/
def Registry.Steady (r : Registry) : Prop := ∀ name m, r.find? name = some m → m.Steady r

namespace Marshal

variable {r : Registry} {field : Field} {kind : Kind} {m : Model} {place : Pointer}
  {value out : Json}

/-! ## Fields without models -/

theorem null_again (hd : field.default = none) (p : Pointer) :
    fieldValue r false field p .null = .ok .null := by
  rw [fieldValue_null, absent_of_default hd]

theorem coerced_again (hshape : field.shape = .scalar kind) (hk : kind.isOpaque = false)
    (h : coerce kind place value = .ok out) (p : Pointer) :
    fieldValue r false field p out = .ok out := by
  have hform := Kind.form_of_coerce hk (coerce_eq_ok.1 h)
  rw [fieldValue_of_not_isOpaque hform.ne_null hshape hk]
  exact coerce_eq_ok.2 (Kind.coerce_of_form hform)

/-- What comes out for a field without a value comes out for it again. -/
theorem absent_again (hs : field.Steady r) (h : absent field place = .ok out) (p : Pointer) :
    fieldValue r false field p out = .ok out := by
  cases hd : field.default with
  | none =>
    rw [absent_of_default hd] at h
    obtain rfl := Except.ok.inj h
    exact null_again hd p
  | some d =>
    obtain ⟨kind, hshape, hk⟩ := hs.scalar_of_default hd
    rw [absent_of_scalar hshape, hd] at h
    exact coerced_again hshape hk h p

/-- What comes out for a value of a kind comes out again. -/
theorem scalar_again (hs : field.Steady r) (hshape : field.shape = .scalar kind)
    (h : scalar field kind place value = .ok out) (p : Pointer) :
    fieldValue r false field p out = .ok out := by
  cases hk : kind.isOpaque with
  | false =>
    rw [scalar, hk, if_neg Bool.false_ne_true] at h
    exact coerced_again hshape hk h p
  | true =>
    by_cases hnull : out = .null
    · rw [hnull]
      refine null_again (hs.default_eq fun kind' hkind => ?_) p
      rwa [← Shape.scalar.inj (hshape.symm.trans hkind)]
    · rw [fieldValue_scalar hnull hshape]
      rw [scalar, hk, if_pos rfl] at h ⊢
      cases hm : field.mask with
      | none => rfl
      | some mask =>
        rw [hm] at h
        have happly : mask.apply true value = .ok out := mapError_eq_ok.1 h
        refine mapError_eq_ok.2 ?_
        exact Json.mapObjects_again (Selector.filter_again mask.selectors) value .root out happly

/-! ## Down the value -/

/-- The models that a steady field refers to are steady if the registered ones are. -/
theorem steady_of_targetModel (hr : r.Steady)
    (hs : field.Steady r) {target : Target} {asList : Bool}
    (hshape : field.shape = .nested target asList) (ht : targetModel r target = .ok m) :
    m.Steady r := by
  cases hs with
  | scalar h | list h => cases h.symm.trans hshape
  | named h =>
    cases h.symm.trans hshape
    exact hr _ m (Registry.lookup_eq_ok.1 (mapError_eq_ok.1 ht))
  | masked h _ _ hflat hmask hf =>
    cases h.symm.trans hshape
    obtain rfl := Except.ok.inj ht
    intro fields hfields
    rw [fieldsOf, hflat, liftModel_ok, bind_ok, outputFields, hmask] at hfields
    obtain rfl := Except.ok.inj hfields
    exact hf

/-- What comes out of a model is an array just if the value is one. -/
theorem isNone_items?_of_model {mask : Option Mask}
    (h : model r false m mask place value = .ok out) :
    out.items?.isNone = value.items?.isNone := by
  rcases form_of_model h with ⟨items, outs, rfl, rfl⟩ | ⟨ho, entries, rfl⟩
  · rfl
  · cases value with
    | arr items => rcases ho with ho | ho <;> cases ho
    | _ => rfl

/--
What comes out for a field of a model comes out again if it is found under the name of the field,
and what comes out for a value of the field does so.
-/
theorem output_again {name : String} {members entries : Members} {e : String × Field}
    (hs : e.2.discriminator = false → e.2.Steady r) (hlookup : entries.lookup e.1 = some out)
    (ih : e.2.Steady r → ∀ v, Json.atPath? members (sourceOf e.1 e.2) = some v → ∀ place out,
      fieldValue r false e.2 place v = .ok out → ∀ p, fieldValue r false e.2 p out = .ok out)
    {p : Pointer} (h : output r false name place members e = .ok out) :
    output r false name p entries e = .ok out := by
  cases hd : e.2.discriminator with
  | true =>
    rw [output_of_discriminator hd] at h ⊢
    exact h
  | false =>
    have hs := hs hd
    have hfound : Json.atPath? entries (sourceOf e.1 e.2) = some out := by
      rw [sourceOf, hs.source_eq, Option.getD_none, Json.atPath?, hlookup]
    rw [output_of_some hd hfound]
    cases hv : Json.atPath? members (sourceOf e.1 e.2) with
    | none =>
      rw [output_of_none hd hv] at h
      exact absent_again hs h _
    | some v =>
      rw [output_of_some hd hv] at h
      exact ih hs v hv _ out h _

mutual

/-- What comes out of a steady model comes out of it again. -/
theorem model_again (hr : r.Steady) {m : Model}
    (hm : m.Steady r) {place : Pointer} {value out : Json}
    (h : model r false m none place value = .ok out) (p : Pointer) :
    model r false m none p out = .ok out := by
  rcases form_cases value with ⟨items, rfl⟩ | ho | hbasic
  · rw [model_arr, modelItems_eq] at h
    obtain ⟨outs, houts, h⟩ := bind_eq_ok.1 h
    obtain rfl := pure_eq_ok.1 h
    rw [model_arr, modelItems_eq, mapM_zipIdx_eq_self fun x hx index => ?_]
    · rfl
    · obtain ⟨item, hitem, hout⟩ := exists_of_mem_mapM houts hx
      have := sizeOf_item_lt hitem
      exact model_again hr hm hout _
  · obtain ⟨flat, fields, entries, hflat, hfields, hentries, rfl⟩ := (model_object_eq_ok ho).1 h
    have hof := fieldsOf_eq_ok hflat hfields
    have hnodup : (Keyed.keys entries).Nodup :=
      (related_of_mapM hentries).keys_eq ▸ nodup_keys_of_fieldsOf hof
    rw [filterMap_kept_false]
    refine (model_object_eq_ok (.inl rfl)).2
      ⟨flat, fields, entries, hflat, outputFields_eq_ok hfields p, ?_, by rw [filterMap_kept_false]⟩
    refine mapM_again hentries fun e he w hw hout => ?_
    obtain ⟨hkey, hout⟩ := entry_eq_ok.1 hout
    refine entry_eq_ok.2 ⟨hkey, output_again (hm fields hof e he) ?_ ?_ hout⟩
    · rw [hkey]
      exact Keyed.lookup_of_mem hnodup hw
    · intro hs v hv place out h
      have := Json.sizeOf_atPath?_membersOrNone_lt hv
      exact fieldValue_again hr hs h
  · rw [model_basic hbasic] at h
    cases h
termination_by (sizeOf value, 0)

/-- What comes out for a steady field comes out for it again. -/
theorem fieldValue_again (hr : r.Steady) {field : Field}
    (hs : field.Steady r) {place : Pointer} {value out : Json}
    (h : fieldValue r false field place value = .ok out) (p : Pointer) :
    fieldValue r false field p out = .ok out := by
  by_cases hv : value = .null
  · rw [hv, fieldValue_null] at h
    exact absent_again hs h p
  · cases hshape : field.shape with
    | scalar kind =>
      rw [fieldValue_scalar hv hshape] at h
      exact scalar_again hs hshape h p
    | list items least most unique =>
      obtain ⟨values, rfl⟩ := arr_of_fieldValue hv hshape h
      rw [fieldValue_list hshape, fieldItems_eq] at h
      obtain ⟨outs, houts, h⟩ := bind_eq_ok.1 h
      obtain rfl := pure_eq_ok.1 h
      rw [fieldValue_list hshape, fieldItems_eq, mapM_zipIdx_eq_self fun x hx index => ?_]
      · rfl
      · obtain ⟨item, hitem, hout⟩ := exists_of_mem_mapM houts hx
        have := sizeOf_item_lt hitem
        exact fieldValue_again hr (hs.items hshape) hout _
    | nested target asList =>
      obtain ⟨hlist, m, hm, hout⟩ := (fieldValue_nested_eq_ok hv hshape).1 h
      have hagain := model_again hr (steady_of_targetModel hr hs hshape hm) hout p
      have hnull : out ≠ .null := fun hnull => model_ne_null (hnull ▸ hout)
      refine (fieldValue_nested_eq_ok hnull hshape).2 ⟨?_, m, hm, hagain⟩
      rwa [isNone_items?_of_model hout]
    | polymorph mapping => exact absurd hshape hs.shape_ne_polymorph
termination_by (sizeOf value, 1)

end

end Marshal

/-- Registered models of plain fields are steady, whatever masks they have, if all fields are. -/
theorem Registry.steady_of_isSteady {r : Registry} (hp : r.Plain) (hs : r.isSteady = true) :
    r.Steady := by
  intro name m hm fields hfields e he hd
  obtain ⟨flat, hflat, hfields⟩ := bind_eq_ok.1 hfields
  have hflat := mapError_eq_ok.1 hflat
  unfold Marshal.outputFields at hfields
  split at hfields
  · obtain ⟨masked, hmasked, hfields⟩ := bind_eq_ok.1 hfields
    obtain rfl := pure_eq_ok.1 hfields
    exact steady_of_maskFlat hp hs _ hm hflat (mapError_eq_ok.1 hmasked) e he hd
  · obtain rfl := Except.ok.inj hfields
    exact (steady_of_resolve hp hs hm hflat he hd).2

/--
**Marshalling is idempotent**: of a registry whose fields are all read under their own names, are
not polymorphic and have no defaults other than of kinds that are not opaque, what comes out for a
value comes out again as it is, also where models and fields have masks.
-/
theorem marshal_idempotent {document : Json} {r : Registry} (h : Registry.load document = .ok r)
    (hs : r.isSteady = true) {name : String} {value out : Json}
    (hout : marshal r {} name value = .ok out) : marshal r {} name out = .ok out := by
  obtain ⟨m, hm, hout⟩ := bind_eq_ok.1 hout
  have hm : r.find? name = some m := Registry.lookup_eq_ok.1 (mapError_eq_ok.1 hm)
  obtain ⟨out', hout', hout⟩ := bind_eq_ok.1 hout
  obtain rfl := pure_eq_ok.1 hout
  have hr := Registry.steady_of_isSteady (Registry.of_load h).1 hs
  rw [marshal_eq hm, Marshal.model_again hr (hr name m hm) hout' .root]
  rfl

/-- Books and their authors. An author comes out with a part of a note and of the books. -/
def Registry.library : Json := .obj [("models", .arr [
  .obj [("name", .str "Book"), ("fields", .obj [
    ("kind", declared "string" [("discriminator", .bool true)]),
    ("title", declared "string" [("default", .bool true)]),
    ("author", declared "nested" [("model", .str "Author")])])],
  .obj [("name", .str "Author"), ("mask", .str "note,books{title}"), ("fields", .obj [
    ("name", declared "string" []),
    ("note", declared "raw" [("mask", .str "place")]),
    ("books", declared "list" [("items", declared "nested" [("model", .str "Book")])])])]])]

theorem marshal_idempotent_library :
    let book : Json := .obj [("kind", .str "paper"), ("title", .null), ("author", .obj [
      ("note", .obj [("place", .str "Kent"), ("year", .null)]),
      ("books", .arr [.obj [("title", .bool false)]])])]
    ∃ r out, Registry.load Registry.library = .ok r ∧ r.isSteady = true ∧
      marshal r {} "Book" book = .ok out ∧ marshal r {} "Book" out = .ok out := by
  intro book
  have h : ((Registry.load Registry.library).toOption.any fun r => r.isSteady &&
      (marshal r {} "Book" book).toOption.isSome) = true := by
    cbv
  obtain ⟨r, hl, h⟩ := exists_of_any_toOption h
  obtain ⟨hs, hout⟩ := Bool.and_eq_true_iff.1 h
  obtain ⟨out, hout⟩ := exists_of_isSome_toOption hout
  exact ⟨r, out, hl, hs, hout, marshal_idempotent hl hs hout⟩

end FieldMask
