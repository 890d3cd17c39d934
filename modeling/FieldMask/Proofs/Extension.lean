import FieldMask.Proofs.Marshal.Steps
import FieldMask.Proofs.Model.Calls
import FieldMask.Proofs.Model.Extension
import FieldMask.Proofs.Schema.Definition

/-!
# Registering models is conservative

What is registered later does not change what was there before. A registered model stays as it is,
and so do its flat model and its ancestors; it keeps the schema that it has, and values keep what
they are marshalled to (`conserved_afterAll`). Only failures may come to an end, since a nested
field may refer to a model that is yet to be registered.
-/

namespace FieldMask

variable {r r' : Registry}

/-! ## Schemas -/

namespace Registry

theorem Extends.fieldSchema (h : r.Extends r') :
    (field : Field) → Keeps (field.schema r) (field.schema r')
  | { shape := .scalar _, .. } => Keeps.refl _
  | { shape := .list items _ _ _, .. } =>
    (h.fieldSchema items).bind fun _ _ => Keeps.refl _
  | { shape := .nested target _, .. } =>
    (h.lookup target.name).discard.bind fun _ _ => Keeps.refl _
  | { shape := .polymorph mapping, .. } =>
    (h.commonAncestor mapping.values).bind fun _ _ => Keeps.refl _

theorem Extends.ownSchema (h : r.Extends r') (model : Model) :
    Keeps (model.ownSchema r) (model.ownSchema r') := by
  refine (keeps_mapM fun e _ => ?_).bind fun _ _ => Keeps.refl _
  exact (h.fieldSchema e.2).bind fun _ _ => Keeps.refl _

/-- A model has the same schema in a larger registry, if it has one. -/
theorem Extends.schema (h : r.Extends r') (model : Model) :
    Keeps (model.schema r) (model.schema r') := by
  refine (h.ownSchema model).bind fun own _ => ?_
  split
  · exact Keeps.refl _
  · refine (keeps_mapM fun parent _ => ?_).bind fun _ _ => Keeps.refl _
    exact (h.lookup parent).discard.bind fun _ _ => Keeps.refl _

end Registry

/-! ## Marshalling -/

namespace Marshal

open Registry

variable {skipNone : Bool}

theorem keeps_liftModel {α : Type} {x y : Except ModelError α} (h : Keeps x y) :
    Keeps (liftModel x) (liftModel y) :=
  h.mapError _ _

theorem keeps_outputFields (h : r.Extends r') (flat : FlatModel) (mask : Option Mask)
    (place : Pointer) :
    Keeps (outputFields r flat mask place) (outputFields r' flat mask place) := by
  unfold outputFields
  split
  · exact ((h.maskFlat _ place flat).mapError _ _).bind fun _ _ => Keeps.refl _
  · exact Keeps.refl _

theorem keeps_matchedModel (h : r.Extends r') (mapping : NameMap String) (place : Pointer)
    (value : Json) :
    Keeps (matchedModel r mapping place value) (matchedModel r' mapping place value) := by
  refine (keeps_liftModel (h.commonAncestor _)).bind fun ancestor _ => ?_
  refine (keeps_liftModel (h.resolve ancestor)).bind fun flat _ => ?_
  dsimp only
  split
  · exact keeps_liftModel (h.lookup _)
  · exact Keeps.refl _

theorem keeps_targetModel (h : r.Extends r') (target : Target) :
    Keeps (targetModel r target) (targetModel r' target) := by
  cases target with
  | named name => exact keeps_liftModel (h.lookup name)
  | masked model => exact Keeps.refl _

/-- An entry comes out alike if the value of its field does. -/
theorem keeps_entry {name : String} {place : Pointer} {members : Members} {e : String × Field}
    (h : ∀ v, Json.atPath? members (sourceOf e.1 e.2) = some v → ∀ place,
      Keeps (fieldValue r skipNone e.2 place v) (fieldValue r' skipNone e.2 place v)) :
    Keeps (entry r skipNone name place members e) (entry r' skipNone name place members e) := by
  refine Keeps.bind ?_ fun _ _ => Keeps.refl _
  cases hd : e.2.discriminator with
  | true =>
    rw [output_of_discriminator hd, output_of_discriminator hd]
    exact Keeps.refl _
  | false =>
    cases hv : Json.atPath? members (sourceOf e.1 e.2) with
    | none =>
      rw [output_of_none hd hv, output_of_none hd hv]
      exact Keeps.refl _
    | some v =>
      rw [output_of_some hd hv, output_of_some hd hv]
      exact h v hv _

mutual

theorem keeps_model (h : r.Extends r') (m : Model) (mask : Option Mask) (place : Pointer)
    (value : Json) : Keeps (model r skipNone m mask place value)
      (model r' skipNone m mask place value) := by
  rcases form_cases value with ⟨items, rfl⟩ | ho | hbasic
  · rw [model_arr, model_arr, modelItems_eq, modelItems_eq]
    refine (keeps_mapM fun x hx => ?_).bind fun _ _ => Keeps.refl _
    have := sizeOf_item_lt hx
    exact keeps_model h m mask (place.item x.2) x.1
  · rw [model_object ho, model_object ho]
    refine (keeps_liftModel (h.resolve m)).bind fun flat _ => ?_
    refine (keeps_outputFields h flat mask place).bind fun fields _ => ?_
    refine (keeps_mapM fun e _ => keeps_entry fun v hv place => ?_).bind fun _ _ => Keeps.refl _
    have := Json.sizeOf_atPath?_membersOrNone_lt hv
    exact keeps_fieldValue h e.2 place v
  · rw [model_basic hbasic, model_basic hbasic]
    exact Keeps.refl _
termination_by (sizeOf value, 0)

theorem keeps_fieldValue (h : r.Extends r') (field : Field) (place : Pointer) (value : Json) :
    Keeps (fieldValue r skipNone field place value) (fieldValue r' skipNone field place value) := by
  by_cases hv : value = .null
  · rw [hv, fieldValue_null, fieldValue_null]
    exact Keeps.refl _
  · cases hs : field.shape with
    | scalar kind =>
      rw [fieldValue_scalar hv hs, fieldValue_scalar hv hs]
      exact Keeps.refl _
    | list items least most unique =>
      by_cases ha : ∃ values, value = .arr values
      · obtain ⟨values, rfl⟩ := ha
        rw [fieldValue_list hs, fieldValue_list hs, fieldItems_eq, fieldItems_eq]
        refine (keeps_mapM fun x hx => ?_).bind fun _ _ => Keeps.refl _
        have := sizeOf_item_lt hx
        exact keeps_fieldValue h items (place.item x.2) x.1
      · have hne : ∀ values, value ≠ .arr values := fun values h => ha ⟨values, h⟩
        rw [fieldValue_list_of_not_arr hv hne hs, fieldValue_list_of_not_arr hv hne hs]
        exact Keeps.refl _
    | nested target asList =>
      rw [fieldValue_nested hv hs, fieldValue_nested hv hs]
      refine (keeps_targetModel h target).bind fun m _ => ?_
      dsimp only
      split
      · nofun
      · exact keeps_model h m none place value
    | polymorph mapping =>
      rw [fieldValue_polymorph hv hs, fieldValue_polymorph hv hs]
      refine (keeps_matchedModel h mapping place value).bind fun m _ => ?_
      exact keeps_model h m field.mask place value
termination_by (sizeOf value, 1)

end

end Marshal

/-- A value is marshalled to the same output in a larger registry, if it is marshalled. -/
theorem Registry.Extends.marshal (h : r.Extends r') (options : MarshalOptions) (name : String)
    (value : Json) :
    Keeps (marshal r options name value) (FieldMask.marshal r' options name value) := by
  refine (Marshal.keeps_liftModel (h.lookup name)).bind fun m _ => ?_
  exact (Marshal.keeps_model h m options.mask .root value).bind fun _ _ => Keeps.refl _

/-! ## Calls -/

namespace Call

theorem extends_after (r : Registry) (call : Call) : r.Extends (call.after r) := by
  unfold after
  cases run_puts r call with
  | fails e hrun _ =>
    rw [hrun]
    exact .refl r
  | puts model _ hfree _ hrun _ =>
    rw [hrun]
    exact Registry.extends_put hfree

theorem extends_afterAll (r : Registry) (calls : List Call) : r.Extends (afterAll r calls) := by
  induction calls generalizing r with
  | nil => exact .refl r
  | cons call calls ih => exact (extends_after r call).trans (ih (call.after r))

/--
**Calls are conservative**: whatever calls follow, whichever of them fail, a model that is
registered, by a clone or otherwise, stays as it is; it flattens as before, or is refused as before,
and has the same ancestors. Its schema stays the same once it has one, and so does what a value is
marshalled to.
-/
theorem conserved_afterAll {calls : List Call} (hb : ∀ call ∈ calls, call.Built) {r : Registry}
    (hr : afterAll .empty calls = r) {later : List Call} {r' : Registry}
    (hr' : afterAll r later = r') {name : String} {model : Model}
    (hm : r.find? name = some model) :
    r'.find? name = some model ∧
      r'.resolveName name = r.resolveName name ∧
      r'.ancestors name = r.ancestors name ∧
      (∀ out, model.schema r = .ok out → model.schema r' = .ok out) ∧
      ∀ options value out, marshal r options name value = .ok out →
        marshal r' options name value = .ok out := by
  have hext : r.Extends r' := hr' ▸ extends_afterAll r later
  have horderly : r.Orderly := hr ▸ orderly_afterAll orderly_empty hb
  obtain ⟨rank, hrank⟩ := horderly.ranked
  obtain ⟨fields, hfields⟩ := hrank.exists_collectAll hm
  obtain ⟨set, hset⟩ := hrank.exists_ancestors hm
  refine ⟨hext name model hm, ?_, ?_, hext.schema model, fun options value => ?_⟩
  · rw [Registry.resolveName, Registry.resolveName, Registry.lookup_eq_ok.2 hm,
      Registry.lookup_eq_ok.2 (hext name model hm)]
    exact hext.resolve_eq hfields
  · rw [hset, hext.ancestors name set hset]
  · exact hext.marshal options name value

/-- A clone is marshalled alike before and after a call that fails and calls that succeed. -/
theorem conserved_afterAll_clone :
    let kind : Field := { shape := .scalar .string, discriminator := true }
    let calls : List Call := [
      .define (Model.extend { name := "Animal" } [("kind", kind)]),
      .inherit "Cat" ["Animal"] [("keeper", { shape := .nested (.named "Keeper") false })],
      .clone "Copy" ["Animal"] [("lives", .ofKind .integer)]]
    let later : List Call := [
      .inherit "Copy" ["Cat"] [],
      .inherit "Keeper" [] [("pet", { shape := .nested (.named "Copy") true })],
      .clone "Other" ["Copy", "Cat"] []]
    ∃ r r' out, afterAll .empty calls = r ∧ afterAll r later = r' ∧
      r.names = ["Animal", "Cat", "Copy"] ∧
      r'.names = ["Animal", "Cat", "Copy", "Keeper", "Other"] ∧
      marshal r {} "Copy" (.obj [("lives", .str "9")]) = .ok out ∧
      marshal r' {} "Copy" (.obj [("lives", .str "9")]) = .ok out := by
  intro kind calls later
  have hb : ∀ call ∈ calls, call.Built := by
    refine List.forall_mem_cons.2 ⟨(Model.Built.new "Animal").extend [("kind", kind)], ?_⟩
    simp [Built]
  obtain ⟨model, hm⟩ := Registry.contains_iff.1
    (show (afterAll .empty calls).contains "Copy" = true by cbv)
  obtain ⟨-, -, -, -, hmarshal⟩ := @conserved_afterAll calls hb _ rfl later _ rfl _ _ hm
  have hout : marshal (afterAll .empty calls) {} "Copy" (.obj [("lives", .str "9")])
      = .ok (.obj [("kind", .str "Copy"), ("lives", .num (.int 9 (by decide)))]) := by
    cbv
  exact ⟨_, _, _, rfl, rfl, by cbv, by cbv, hout, hmarshal {} _ _ hout⟩

end Call

end FieldMask
