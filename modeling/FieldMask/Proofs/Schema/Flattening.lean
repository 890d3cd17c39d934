import FieldMask.Proofs.Schema.Conformance
import FieldMask.Proofs.Schema.Wellformed

/-!
# Flattening a schema

What conforms to a model conforms to the model without parents that has the flattened fields: each
of these is an own field of a model of the lineage, to which the value conforms as well
(`Model.Admits.flattened`). The converse holds where no model of the lineage is strict and no two of
them have a field of the same name, so that none of the fields is lost (`admits_of_flat`).

With that the document of a model is at least as strict as that of its flat model
(`validateDocument_flat`).
-/

namespace FieldMask

namespace Field

variable {q : Equality} {r : Registry} {field : Field} {name : String} {v : Json}

@[simp] theorem stamped_choices : (field.stamped name).choices = field.choices := by
  unfold stamped
  split <;> rfl

@[simp] theorem stamped_required : (field.stamped name).required = field.required := by
  unfold stamped
  split <;> rfl

/-- The default of a discriminator is of no consequence to what the field admits. -/
theorem admits_stamped_iff : (field.stamped name).Admits q r v ↔ field.Admits q r v := by
  rw [admits_iff, admits_iff, stamped_shape, stamped_choices]

end Field

section Admits

variable {q : Equality} {r : Registry} {model owner : Model} {flat : FlatModel} {given : Members}
  {v : Json}

/-- What conforms to a model conforms to all models of its lineage. -/
theorem Model.Admits.lineage (h : model.Admits q r (.obj given)) (hl : r.Lineage model owner) :
    owner.Admits q r (.obj given) := by
  induction hl with
  | refl model => exact h
  | parent hp hm _ ih => exact ih ((Model.admits_obj_iff.1 h).1 _ hp _ hm)

/-- **What conforms to a model conforms to its flat model.** -/
theorem Model.Admits.flattened (h : model.Admits q r v) (hf : r.resolve model = .ok flat) :
    flat.toModel.Admits q r v := by
  obtain ⟨given, rfl⟩ := h.exists_obj
  have hstrict : flat.strict = model.strict := by
    obtain ⟨_, -, -, rfl⟩ := Registry.resolve_eq_ok.1 hf
    rfl
  refine Model.admits_obj_iff.2 ⟨nofun, ?_, ?_, ?_⟩
  · intro e he hr
    obtain ⟨owner, field, hl, hmem, heq⟩ := Registry.lineage_of_resolve hf he
    rw [heq, Field.stamped_required] at hr
    exact (Model.admits_obj_iff.1 (h.lineage hl)).2.1 (e.1, field) hmem hr
  · intro hs
    have hown := (Model.admits_obj_iff.1 h).2.2.1 (hstrict.symm.trans hs)
    exact List.Subset.trans hown ((Registry.Lineage.refl model).keys_resolve hf)
  · intro e he w hw
    obtain ⟨owner, field, hl, hmem, heq⟩ := Registry.lineage_of_resolve hf he
    rw [heq, Field.admits_stamped_iff]
    exact (Model.admits_obj_iff.1 (h.lineage hl)).2.2.2 (e.1, field) hmem w hw

/-- No two models of the lineage have a field of the same name. -/
def Registry.Disjoint (r : Registry) (model : Model) : Prop :=
  ∀ a b, r.Lineage model a → r.Lineage model b →
    ∀ key ∈ Keyed.keys a.fields, key ∈ Keyed.keys b.fields → a = b

/-- Every own field of a lineage of different fields is in the flat model. -/
theorem Registry.Disjoint.mem_flat (hd : r.Disjoint model) (hf : r.resolve model = .ok flat)
    (hl : r.Lineage model owner) (hn : (Keyed.keys owner.fields).Nodup) {e : String × Field}
    (he : e ∈ owner.fields) : (e.1, e.2.stamped model.name) ∈ flat.fields := by
  have hkey : e.1 ∈ Keyed.keys owner.fields := Keyed.mem_keys_of_mem he
  obtain ⟨e', he', hname⟩ := List.mem_map.1 (hl.keys_resolve hf hkey)
  obtain ⟨other, field, hother, hmem, heq⟩ := Registry.lineage_of_resolve hf he'
  have hother_key : e'.1 ∈ Keyed.keys other.fields := List.mem_map.2 ⟨_, hmem, rfl⟩
  rw [hname] at hother_key
  obtain rfl := hd owner other hl hother e.1 hkey hother_key
  have hfield : field = e.2 := by
    have h := Keyed.lookup_of_mem hn hmem
    rw [hname, Keyed.lookup_of_mem hn he] at h
    exact (Option.some.inj h).symm
  rw [← hname, ← hfield, ← heq]
  exact he'

/--
What conforms to the flat model of a lineage without strict models, no two of which have a field of
the same name, conforms to the model.
-/
theorem Model.admits_of_flat (hr : r.Orderly) {name : String} (hm : r.find? name = some model)
    (hf : r.resolve model = .ok flat)
    (hs : ∀ owner, r.Lineage model owner → owner.strict = false) (hd : r.Disjoint model)
    (h : flat.toModel.Admits q r v) : model.Admits q r v := by
  obtain ⟨given, rfl⟩ := h.exists_obj
  obtain ⟨-, hrequired, -, hfields⟩ := Model.admits_obj_iff.1 h
  obtain ⟨rank, hrank⟩ := hr.ranked
  -- by induction on the rank of the models of the lineage, each of which has registered parents
  suffices hall : ∀ n owner name, rank name = n → r.find? name = some owner →
      r.Lineage model owner → owner.Admits q r (.obj given) from
    hall _ model name rfl hm (.refl model)
  intro n
  induction n using Nat.strongRecOn with
  | ind n ih =>
    intro owner name hn howner hl
    have hmem {e : String × Field} (he : e ∈ owner.fields) :
        (e.1, e.2.stamped model.name) ∈ flat.fields := hd.mem_flat hf hl (hr.nodup howner) he
    refine Model.admits_obj_iff.2 ⟨?_, ?_, ?_, ?_⟩
    · intro parent hp p hparent
      have hlt : rank parent < rank name := hrank.descends ⟨owner, howner, hp⟩
      have hlineage := hl.trans (.parent hp hparent (.refl p))
      exact ih (rank parent) (hn ▸ hlt) p parent rfl hparent hlineage
    · intro e he hreq
      exact hrequired (e.1, e.2.stamped model.name) (hmem he) (Field.stamped_required.trans hreq)
    · intro hstrict
      cases (hs owner hl).symm.trans hstrict
    · intro e he w hw
      exact Field.admits_stamped_iff.1 (hfields (e.1, e.2.stamped model.name) (hmem he) w hw)

end Admits

/-! ## Documents -/

namespace Registry

variable {c : Comparison} {r : Registry} {model : Model} {flat : FlatModel}

/-- Everything that the schema of a flat model is written from is there. -/
theorem fits_flat (hr : r.Compilable) {name : String} (hm : r.find? name = some model)
    (hf : r.resolve model = .ok flat) : flat.toModel.Fits r where
  nodup := (settled_of_resolve hf).nodup
  plain := plain_of_resolve hr.plain (hr.plain name model hm) hf
  sound := by
    obtain ⟨flat', hflat, hsound⟩ := sound_of_check hr.plain hr.checked name model hm
    obtain rfl := Except.ok.inj (hf.symm.trans hflat)
    exact hsound
  parents := nofun

theorem exists_modelDocument_of_fits (hr : r.Compilable) (hm : model.Fits r) :
    ∃ document, r.modelDocument model = .ok document := by
  obtain ⟨schema, hschema⟩ := Model.exists_schema
    (fun e he => Field.exists_schema (hm.plain e he) (hm.sound e he)) hm.parents
  obtain ⟨properties, -, rfl⟩ := Model.schema_eq_ok hm.nodup hschema
  obtain ⟨definitions, hd⟩ := exists_definitions hr.plain hr.checked
  rw [modelDocument, hschema, bind_ok]
  show ∃ document, (r.definitions >>= _) = Except.ok document
  rw [hd]
  exact ⟨_, rfl⟩

/-- A value is valid against the document of a model if it conforms to the model. -/
theorem validateDocument_modelDocument (hr : r.Compilable) (hm : model.Fits r) {document v : Json}
    (h : r.modelDocument model = .ok document) (hv : v.Distinct) :
    validateDocument document v c = .ok () ↔ model.Admits c.equality r v := by
  rw [validateDocument_of_proper (proper_modelDocument hr hm h)]
  exact (validateRules_modelDocument hr hm h hv).1

/--
**Composition refines flattening.** What is valid against the document of a model of a loaded
registry of plain names is valid against the document of its flat model. The converse holds where no
model of the lineage is strict and no two of them have a field of the same name. The values are
those that write no key twice, such as all that are read (`Json.distinct_of_read`).
-/
theorem validateDocument_flat {source : Json} (h : Registry.load source = .ok r)
    (hn : r.isPlainlyNamed = true) {name : String} (hm : r.find? name = some model) :
    ∃ flat document flatDocument, r.resolve model = .ok flat ∧
      r.modelDocument model = .ok document ∧ r.modelDocument flat.toModel = .ok flatDocument ∧
      ∀ v : Json, v.Distinct →
        (validateDocument document v = .ok () → validateDocument flatDocument v = .ok ()) ∧
        ((∀ owner, r.Lineage model owner → owner.strict = false) → r.Disjoint model →
          validateDocument flatDocument v = .ok () → validateDocument document v = .ok ()) := by
  have hr := compilable_of_load h hn
  have hfits := hr.fits hm
  obtain ⟨flat, hflat, -⟩ := sound_of_load h name model hm
  have hflatFits := fits_flat hr hm hflat
  obtain ⟨document, hdocument⟩ := exists_modelDocument_of_fits hr hfits
  obtain ⟨flatDocument, hflatDocument⟩ := exists_modelDocument_of_fits hr hflatFits
  refine ⟨flat, document, flatDocument, hflat, hdocument, hflatDocument, fun v hv => ?_⟩
  rw [validateDocument_modelDocument hr hfits hdocument hv,
    validateDocument_modelDocument hr hflatFits hflatDocument hv]
  exact ⟨fun h => h.flattened hflat, Model.admits_of_flat hr.orderly hm hflat⟩

/-- A shop is valid against both documents, and one with a code twice against neither. -/
theorem validateDocument_flat_shops :
    let good := cornerShop [.ofWord 1, .ofWord 2]
    let bad := cornerShop [.ofWord 1, .num floatOne]
    ∃ r flat document flatDocument, Registry.load shops = .ok r ∧
      r.isPlainlyNamed = true ∧ r.find? "Shop" = some shop ∧ r.resolve shop = .ok flat ∧
      (∀ owner, r.Lineage shop owner → owner.strict = false) ∧ r.Disjoint shop ∧
      r.modelDocument shop = .ok document ∧ r.modelDocument flat.toModel = .ok flatDocument ∧
      good.Distinct ∧ bad.Distinct ∧
      (validateDocument document good = .ok () ∧ validateDocument flatDocument good = .ok ()) ∧
      validateDocument document bad ≠ .ok () ∧ validateDocument flatDocument bad ≠ .ok () := by
  intro good bad
  obtain ⟨r, hl, hn, hshop, hplace, htag⟩ := exists_shops
  have hlineage {owner : Model} (hl : r.Lineage shop owner) : owner = shop ∨ owner = shopPlace :=
    hl.eq_or_eq rfl hplace rfl
  have hstrict : ∀ owner, r.Lineage shop owner → owner.strict = false := by
    intro owner hl
    rcases hlineage hl with rfl | rfl <;> rfl
  have hdisjoint : r.Disjoint shop := by
    intro a b ha hb key hka hkb
    rcases hlineage ha with rfl | rfl <;> rcases hlineage hb with rfl | rfl
    · rfl
    · simp_all [shop, shopPlace]
    · simp_all [shop, shopPlace]
    · rfl
  obtain ⟨flat, document, flatDocument, hflat, hdocument, hflatDocument, hv⟩ :=
    validateDocument_flat hl hn hshop
  have hgood : good.Distinct := distinct_cornerShop ⟨trivial, trivial, trivial⟩
  have hbad : bad.Distinct := distinct_cornerShop ⟨trivial, trivial, trivial⟩
  have hr := compilable_of_load hl hn
  obtain ⟨hadmits, hnot⟩ := admits_cornerShop_installed hplace htag
  have hvalid : validateDocument document good = .ok () :=
    (validateDocument_modelDocument hr (hr.fits hshop) hdocument hgood).2 hadmits
  have hinvalid : validateDocument document bad ≠ .ok () := fun h =>
    hnot ((validateDocument_modelDocument hr (hr.fits hshop) hdocument hbad).1 h)
  exact ⟨r, flat, document, flatDocument, hl, hn, hshop, hflat, hstrict, hdisjoint, hdocument,
    hflatDocument, hgood, hbad, ⟨hvalid, (hv good hgood).1 hvalid⟩, hinvalid,
    fun h => hinvalid ((hv bad hbad).2 hstrict hdisjoint h)⟩

end Registry

end FieldMask
