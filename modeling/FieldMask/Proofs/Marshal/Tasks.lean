import FieldMask.Proofs.Marshal.Coercion
import FieldMask.Proofs.Marshal.Places
import FieldMask.Proofs.Mask.Bounded
import FieldMask.Proofs.Model.Masked
import Mathlib

/-!
# What stands behind the parts of an outcome

Marshalling goes down the value and the fields of the models side by side. A task is a value with
the model or the field that it is marshalled against. A field that refers to models hands its value
on to one of them. From the outcome of a task a step leads to the outcome of another one: from an
array to the items, and from an object to the fields of the model.

So a path in the outcome has a task behind it, and what the path leads to is the outcome of that
task (`exists_run_of_follow?`). The paths without a task are those that come to a discriminator,
or that go on below a value that is taken whole (`follow?_cases`).
-/

namespace FieldMask

/-- A value in the form of a kind has no parts. -/
theorem Kind.Form.next?_eq_none {kind : Kind} {value : Json} (h : kind.Form value)
    (step : Json.Step) : value.next? step = none := by
  cases step <;> cases h <;> rfl

namespace Marshal

/-- A value with the model, and the mask if there is one, or the field to marshal it against. -/
inductive Task
  | model (m : Model) (mask : Option Mask) (value : Json)
  | field (field : Field) (value : Json)

/-- The model that a field hands a value on to, with the mask for it. -/
def target? (r : Registry) (field : Field) : Json → Option (Model × Option Mask)
  | .null => none
  | value =>
    match field.shape with
    | .nested target _ => (targetModel r target).toOption.map (·, none)
    | .polymorph mapping => (matchedModel r mapping .root value).toOption.map (·, field.mask)
    | _ => none

/-- The fields that come out for a model. -/
def fieldsOf (r : Registry) (m : Model) (mask : Option Mask) : Result Fields := do
  let flat ← liftModel (r.resolve m)
  outputFields r flat mask .root

/-- The value that is found for a field; one that is missing counts as null. -/
def found (value : Json) (name : String) (field : Field) : Json :=
  (Json.atPath? value.membersOrNone (sourceOf name field)).getD .null

namespace Task

/-- What marshalling makes of the value. -/
def run (r : Registry) (skipNone : Bool) (place : Pointer) : Task → Result Json
  | model m mask value => Marshal.model r skipNone m mask place value
  | field f value => fieldValue r skipNone f place value

/-- The task that is left when a field has handed its value on. -/
def handOn (r : Registry) : Task → Task
  | model m mask value => model m mask value
  | field f value =>
    match target? r f value with
    | some (m, mask) => model m mask value
    | none => field f value

/-- The task behind a step down in the outcome; a discriminator has none. -/
def next? (r : Registry) : Task → Json.Step → Option Task
  | model m mask (.arr items), .item i => items[i]?.map (model m mask)
  | model m mask value, .key name => do
    let f ← (fieldsOf r m mask).toOption.bind (·.lookup name)
    if f.discriminator then none else some (field f (found value name f))
  | field f (.arr values), .item i =>
    match f.shape with
    | .list items _ _ _ => values[i]?.map (field items)
    | _ => none
  | _, _ => none

/-- The task behind a path in the outcome. -/
def follow? (r : Registry) (t : Task) (path : List Json.Step) : Option Task :=
  path.foldlM (fun t step => (t.handOn r).next? r step) t

end Task

variable {r : Registry} {skipNone : Bool} {m : Model} {mask : Option Mask} {place : Pointer}
  {value out w : Json} {f : Field}

/-! ## Fields that come out -/

theorem name_of_resolve {flat : FlatModel} (h : r.resolve m = .ok flat) : flat.name = m.name := by
  obtain ⟨fields, -, -, rfl⟩ := Registry.resolve_eq_ok.1 h
  rfl

theorem nodup_keys_of_fieldsOf {fields : Fields} (h : fieldsOf r m mask = .ok fields) :
    (Keyed.keys fields).Nodup := by
  obtain ⟨flat, hflat, h⟩ := bind_eq_ok.1 h
  have hs := Registry.settled_of_resolve (mapError_eq_ok.1 hflat)
  unfold outputFields at h
  split at h
  · obtain ⟨masked, hm, h⟩ := bind_eq_ok.1 h
    obtain rfl := pure_eq_ok.1 h
    exact (Registry.settled_maskFlat hs (mapError_eq_ok.1 hm)).nodup
  · obtain rfl := Except.ok.inj h
    exact hs.nodup

/-- The fields that come out do not depend on the place. -/
theorem outputFields_eq_ok {flat : FlatModel} {fields : Fields}
    (h : outputFields r flat mask place = .ok fields) (p : Pointer) :
    outputFields r flat mask p = .ok fields := by
  have hplace : RelocatesAt (fun _ => True) (fun _ => False)
      fun p => outputFields r flat mask p := relocates_outputFields mask fun _ _ => trivial
  exact hplace.eq_ok h p

theorem fieldsOf_eq_ok {flat : FlatModel} {fields : Fields} (hflat : r.resolve m = .ok flat)
    (h : outputFields r flat mask place = .ok fields) : fieldsOf r m mask = .ok fields := by
  rw [fieldsOf, hflat]
  exact outputFields_eq_ok h .root

theorem found_of_some {key : String} {v : Json}
    (h : Json.atPath? value.membersOrNone (sourceOf key f) = some v) : found value key f = v := by
  rw [found, h, Option.getD_some]

theorem found_of_none {key : String}
    (h : Json.atPath? value.membersOrNone (sourceOf key f) = none) :
    found value key f = .null := by
  rw [found, h, Option.getD_none]

/-- What comes out for a field is what marshalling makes of the value that is found for it. -/
theorem output_eq_fieldValue {name : String} {e : String × Field} (h : e.2.discriminator = false) :
    output r skipNone name place value.membersOrNone e
      = fieldValue r skipNone e.2 (place.child e.1) (found value e.1 e.2) := by
  cases hv : Json.atPath? value.membersOrNone (sourceOf e.1 e.2) with
  | none => rw [output_of_none h hv, found_of_none hv, fieldValue_null]
  | some v => rw [output_of_some h hv, found_of_some hv]

/-! ## Handing on -/

theorem target?_null : target? r f .null = none := rfl

theorem target?_nested {target : Target} {asList : Bool} (hv : value ≠ .null)
    (h : f.shape = .nested target asList) :
    target? r f value = (targetModel r target).toOption.map (·, none) := by
  rw [target?]
  · rw [h]
  · exact hv

theorem target?_polymorph {mapping : NameMap String} (hv : value ≠ .null)
    (h : f.shape = .polymorph mapping) :
    target? r f value = (matchedModel r mapping .root value).toOption.map (·, f.mask) := by
  rw [target?]
  · rw [h]
  · exact hv

theorem target?_scalar {kind : Kind} (h : f.shape = .scalar kind) : target? r f value = none := by
  unfold target?
  rw [h]
  split <;> rfl

theorem target?_list {items : Field} {least most : Option UInt64} {unique : Bool}
    (h : f.shape = .list items least most unique) : target? r f value = none := by
  unfold target?
  rw [h]
  split <;> rfl

/-- The model that a polymorphic value is matched with does not depend on the place. -/
theorem matchedModel_root {mapping : NameMap String}
    (h : matchedModel r mapping place value = .ok m) :
    matchedModel r mapping .root value = .ok m := by
  have hplace : RelocatesAt (fun _ => True) (fun _ => False)
      fun p => matchedModel r mapping p value := relocates_matchedModel mapping value
  exact hplace.eq_ok h .root

namespace Task

variable {t u : Task} {step : Json.Step} {path : List Json.Step}

theorem handOn_of_target? (h : target? r f value = some (m, mask)) :
    (field f value).handOn r = model m mask value := by
  rw [handOn, h]

theorem handOn_of_none (h : target? r f value = none) :
    (field f value).handOn r = field f value := by
  rw [handOn, h]

theorem handOn_handOn : (t.handOn r).handOn r = t.handOn r := by
  cases t with
  | model m mask value => rfl
  | field f value =>
    cases h : target? r f value with
    | none => rw [handOn_of_none h, handOn_of_none h]
    | some target => rw [handOn_of_target? h, handOn]

/-- A field that ends well with a value is of a kind or a list, or it hands the value on. -/
theorem cases_of_fieldValue (hv : value ≠ .null)
    (h : fieldValue r skipNone f place value = .ok out) :
    (∃ kind, f.shape = .scalar kind) ∨
      (∃ items least most unique, f.shape = .list items least most unique) ∨
      ∃ m mask, target? r f value = some (m, mask) ∧
        Marshal.model r skipNone m mask place value = .ok out := by
  cases hs : f.shape with
  | scalar kind => exact .inl ⟨kind, rfl⟩
  | list items least most unique => exact .inr (.inl ⟨items, least, most, unique, rfl⟩)
  | nested target asList =>
    obtain ⟨-, m, hm, hout⟩ := (fieldValue_nested_eq_ok hv hs).1 h
    refine .inr (.inr ⟨m, none, ?_, hout⟩)
    rw [target?_nested hv hs, hm]
    rfl
  | polymorph mapping =>
    rw [fieldValue_polymorph hv hs] at h
    obtain ⟨m, hm, hout⟩ := bind_eq_ok.1 h
    refine .inr (.inr ⟨m, f.mask, ?_, hout⟩)
    rw [target?_polymorph hv hs, matchedModel_root hm]
    rfl

/-- A field that hands its value on gives what the model gives. -/
theorem run_handOn (h : t.run r skipNone place = .ok out) :
    (t.handOn r).run r skipNone place = .ok out := by
  cases t with
  | model m mask value => exact h
  | field f value =>
    by_cases hv : value = .null
    · subst hv
      exact h
    · rcases cases_of_fieldValue hv h with ⟨_, hs⟩ | ⟨_, _, _, _, hs⟩ | ⟨m, mask, htarget, hout⟩
      · rwa [handOn_of_none (target?_scalar hs)]
      · rwa [handOn_of_none (target?_list hs)]
      · rwa [handOn_of_target? htarget]

/-! ## Parts without a task -/

/-- The outcome of the task is a default, or it comes from a value that no model describes. -/
inductive Whole : Task → Prop
  | default {f : Field} {value : Json} (h : f.default = some value) : Whole (field f .null)
  | scalar {f : Field} {kind : Kind} {value : Json} (h : f.shape = .scalar kind)
      (ho : kind.isOpaque = true) : Whole (field f value)

theorem handOn_of_whole (h : t.Whole) : t.handOn r = t := by
  cases h with
  | default => exact handOn_of_none target?_null
  | scalar hs => exact handOn_of_none (target?_scalar hs)

/-- The field that comes out for the model under the key is a discriminator. -/
def Stamps (r : Registry) (m : Model) (mask : Option Mask) (key : String) : Prop :=
  ∃ fields f, fieldsOf r m mask = .ok fields ∧ (key, f) ∈ fields ∧ f.discriminator = true

/-! ## Steps down -/

theorem next?_key {fields : Fields} {key : String} (h : fieldsOf r m mask = .ok fields)
    (hf : (key, f) ∈ fields) (hd : f.discriminator = false) :
    (model m mask value).next? r (.key key) = some (field f (found value key f)) := by
  have hlookup := Keyed.lookup_of_mem (nodup_keys_of_fieldsOf h) hf
  simp [next?, h, Except.toOption, hlookup, hd]

theorem next?_list {items : Field} {least most : Option UInt64} {unique : Bool}
    {values : List Json} {i : ℕ} {x : Json} (hs : f.shape = .list items least most unique)
    (hx : values[i]? = some x) :
    (field f (.arr values)).next? r (.item i) = some (field items x) := by
  rw [next?, hs]
  exact Option.map_eq_some_iff.2 ⟨x, hx, rfl⟩

/-- A step from a model leads to an item, or to a field that comes out and stamps nothing. -/
theorem next?_model_eq_some (h : (model m mask value).next? r step = some u) :
    (∃ i x, step = .item i ∧ u = model m mask x) ∨
      ∃ fields f key, fieldsOf r m mask = .ok fields ∧ (key, f) ∈ fields ∧ f.discriminator = false ∧
        step = .key key ∧ u = field f (found value key f) := by
  cases step with
  | item i =>
    cases value with
    | arr items =>
      obtain ⟨x, -, rfl⟩ := Option.map_eq_some_iff.1 h
      exact .inl ⟨i, x, rfl, rfl⟩
    | _ => cases h
  | key key =>
    rw [Task.next?] at h
    obtain ⟨f, hf, h⟩ := Option.bind_eq_some_iff.1 h
    obtain ⟨fields, hfields, hf⟩ := Option.bind_eq_some_iff.1 hf
    split at h
    · cases h
    · rename_i hd
      obtain rfl := Option.some.inj h
      exact .inr ⟨fields, f, key, toOption_eq_some.1 hfields, Keyed.mem_of_lookup hf,
        Bool.eq_false_iff.2 hd, rfl, rfl⟩

/-- A step from a field leads to an item of a list. -/
theorem next?_field_eq_some (h : (field f value).next? r step = some u) :
    ∃ items least most unique values i x, f.shape = .list items least most unique ∧
      value = .arr values ∧ step = .item i ∧ values[i]? = some x ∧ u = field items x := by
  cases step with
  | key => cases value <;> cases h
  | item i =>
    cases value with
    | arr values =>
      rw [next?] at h
      split at h
      · rename_i items least most unique hs
        obtain ⟨x, hx, rfl⟩ := Option.map_eq_some_iff.1 h
        exact ⟨items, least, most, unique, values, i, x, hs, rfl, rfl, hx, rfl⟩
      · cases h
    | _ => cases h

/-- An entry of an object comes out for a field of its name. -/
theorem exists_output_of_lookup {fields : Fields} {entries : Members} {name key : String}
    {members : Members} (hentries : fields.mapM (entry r skipNone name place members) = .ok entries)
    (hw : (entries.filterMap (kept skipNone)).lookup key = some w) :
    ∃ f, (key, f) ∈ fields ∧ output r skipNone name place members (key, f) = .ok w := by
  obtain ⟨e, he, hout⟩ := exists_of_mem_mapM hentries (mem_of_mem_kept (Keyed.mem_of_lookup hw))
  obtain ⟨rfl, hout⟩ := entry_eq_ok.1 hout
  exact ⟨e.2, he, hout⟩

theorem next?_eq_none_of_whole (h : t.Whole) : t.next? r step = none := by
  cases h with
  | default => cases step <;> rfl
  | scalar hs =>
    refine Option.eq_none_iff_forall_ne_some.2 fun u hu => ?_
    obtain ⟨_, _, _, _, _, _, _, hlist, -⟩ := next?_field_eq_some hu
    cases hs.symm.trans hlist

theorem next?_eq_none_of_stamps {key : String} (h : Stamps r m mask key) :
    (model m mask value).next? r (.key key) = none := by
  obtain ⟨fields, f, hfields, hf, hd⟩ := h
  have hlookup := Keyed.lookup_of_mem (nodup_keys_of_fieldsOf hfields) hf
  simp [next?, hfields, Except.toOption, hlookup, hd]

/--
A step from the outcome of a model leads to the outcome of the task behind the step, unless it comes
to a discriminator, which holds the name of the model.
-/
theorem cases_of_next?_model (h : Marshal.model r skipNone m mask place value = .ok out)
    (hw : out.next? step = some w) :
    (∃ u p, (model m mask value).next? r step = some u ∧ u.run r skipNone p = .ok w) ∨
      ∃ key, step = .key key ∧ Stamps r m mask key ∧ w = .str m.name := by
  rcases form_cases value with ⟨items, rfl⟩ | ho | hbasic
  · rw [model_arr, modelItems_eq] at h
    obtain ⟨outs, houts, h⟩ := bind_eq_ok.1 h
    obtain rfl := pure_eq_ok.1 h
    cases step with
    | key => cases hw
    | item i =>
      obtain ⟨x, hx, hrun⟩ := exists_getElem?_of_mapM_zipIdx houts hw
      exact .inl ⟨model m mask x, _, Option.map_eq_some_iff.2 ⟨x, hx, rfl⟩, hrun⟩
  · obtain ⟨flat, fields, entries, hflat, hfields, hentries, rfl⟩ := (model_object_eq_ok ho).1 h
    cases step with
    | item => cases hw
    | key key =>
      obtain ⟨f, hf, hout⟩ := exists_output_of_lookup hentries hw
      have hfields := fieldsOf_eq_ok hflat hfields
      cases hd : f.discriminator with
      | true =>
        rw [output_of_discriminator hd, name_of_resolve hflat] at hout
        exact .inr ⟨key, rfl, ⟨fields, f, hfields, hf, hd⟩, (Except.ok.inj hout).symm⟩
      | false =>
        rw [output_eq_fieldValue hd] at hout
        exact .inl ⟨_, _, next?_key hfields hf hd, hout⟩
  · rw [model_basic hbasic] at h
    cases h

/--
A step from the outcome of a field that hands nothing on leads to the outcome of the task behind the
step, unless it goes below a value that is taken whole.
-/
theorem cases_of_next?_field (h : fieldValue r skipNone f place value = .ok out)
    (ht : target? r f value = none) (hw : out.next? step = some w) :
    (∃ u p, (field f value).next? r step = some u ∧ u.run r skipNone p = .ok w) ∨
      (field f value).Whole := by
  by_cases hv : value = .null
  · subst hv
    rw [fieldValue_null] at h
    cases hdefault : f.default with
    | none =>
      rw [absent_of_default hdefault] at h
      obtain rfl := Except.ok.inj h
      cases step <;> cases hw
    | some d => exact .inr (.default hdefault)
  · rcases cases_of_fieldValue hv h with ⟨kind, hs⟩ | ⟨_, _, _, _, hs⟩ | ⟨m, mask, htarget, -⟩
    · cases ho : kind.isOpaque with
      | true => exact .inr (.scalar hs ho)
      | false =>
        rw [fieldValue_of_not_isOpaque hv hs ho, coerce_eq_ok] at h
        rw [(Kind.form_of_coerce ho h).next?_eq_none] at hw
        cases hw
    · obtain ⟨values, rfl⟩ := arr_of_fieldValue hv hs h
      rw [fieldValue_list hs, fieldItems_eq] at h
      obtain ⟨outs, houts, h⟩ := bind_eq_ok.1 h
      obtain rfl := pure_eq_ok.1 h
      cases step with
      | key => cases hw
      | item i =>
        obtain ⟨x, hx, hrun⟩ := exists_getElem?_of_mapM_zipIdx houts hw
        exact .inl ⟨_, _, next?_list hs hx, hrun⟩
    · cases ht.symm.trans htarget

/--
**A step** from the outcome of a task, when its value has been handed on, leads to the outcome of
the task behind the step, unless it goes below a value that is taken whole or comes to a
discriminator.
-/
theorem cases_of_next? (h : t.run r skipNone place = .ok out) (hw : out.next? step = some w) :
    (∃ u p, (t.handOn r).next? r step = some u ∧ u.run r skipNone p = .ok w) ∨ t.Whole ∨
      ∃ m mask value key, t.handOn r = model m mask value ∧ step = .key key ∧
        Stamps r m mask key ∧ w = .str m.name := by
  have hon := run_handOn h
  cases t with
  | model m mask value =>
    rcases cases_of_next?_model hon hw with hu | ⟨key, rfl, hkey, rfl⟩
    · exact .inl hu
    · exact .inr (.inr ⟨m, mask, value, key, rfl, rfl, hkey, rfl⟩)
  | field f value =>
    cases htarget : target? r f value with
    | none =>
      rw [handOn_of_none htarget]
      exact (cases_of_next?_field h htarget hw).imp_right .inl
    | some target =>
      rw [handOn_of_target? htarget] at hon ⊢
      rcases cases_of_next?_model hon hw with hu | ⟨key, rfl, hkey, rfl⟩
      · exact .inl hu
      · exact .inr (.inr ⟨_, _, value, key, rfl, rfl, hkey, rfl⟩)

/-- If there is a task behind the step, the step leads to its outcome. -/
theorem exists_run_of_next? (h : t.run r skipNone place = .ok out)
    (hu : (t.handOn r).next? r step = some u) (hw : out.next? step = some w) :
    ∃ p, u.run r skipNone p = .ok w := by
  rcases cases_of_next? h hw with ⟨v, p, hv, hrun⟩ | hwhole | ⟨_, _, _, _, ht, rfl, hkey, -⟩
  · obtain rfl := Option.some.inj (hu.symm.trans hv)
    exact ⟨p, hrun⟩
  · rw [handOn_of_whole hwhole, next?_eq_none_of_whole hwhole] at hu
    cases hu
  · rw [ht, next?_eq_none_of_stamps hkey] at hu
    cases hu

/-! ## Paths -/

theorem follow?_cons :
    t.follow? r (step :: path) = ((t.handOn r).next? r step).bind (·.follow? r path) := rfl

theorem follow?_append {rest : List Json.Step} :
    t.follow? r (path ++ rest) = (t.follow? r path).bind (·.follow? r rest) :=
  List.foldlM_append

/-- **What a path leads to is the outcome of the task behind the path.** -/
theorem exists_run_of_follow? (h : t.run r skipNone place = .ok out)
    (hu : t.follow? r path = some u) (hw : out.follow? path = some w) :
    ∃ p, u.run r skipNone p = .ok w := by
  induction path generalizing t place out with
  | nil =>
    obtain rfl := Option.some.inj hu
    obtain rfl := Option.some.inj hw
    exact ⟨place, h⟩
  | cons step path ih =>
    obtain ⟨t', ht', hu⟩ := Option.bind_eq_some_iff.1 hu
    obtain ⟨out', hout', hw⟩ := Option.bind_eq_some_iff.1 hw
    obtain ⟨p, h'⟩ := exists_run_of_next? h ht' hout'
    exact ih h' hu hw

/--
**A path without a task** comes to a discriminator, which holds the name of the model, or goes on
below a value that is taken whole.
-/
theorem follow?_cases (h : t.run r skipNone place = .ok out) (hw : out.follow? path = some w) :
    (∃ u, t.follow? r path = some u) ∨
      (∃ front u m mask value key, path = front ++ [.key key] ∧ t.follow? r front = some u ∧
        u.handOn r = model m mask value ∧ Stamps r m mask key) ∨
      ∃ front rest u, path = front ++ rest ∧ t.follow? r front = some u ∧ u.Whole := by
  induction path generalizing t place out with
  | nil => exact .inl ⟨t, rfl⟩
  | cons step path ih =>
    obtain ⟨out', hout', hw⟩ := Option.bind_eq_some_iff.1 hw
    rcases cases_of_next? h hout' with ⟨u, p, hu, h⟩ | hwhole | hstamps
    · have hfollow (front : List Json.Step) : t.follow? r (step :: front) = u.follow? r front := by
        rw [follow?_cons, hu, Option.bind_some]
      rcases ih h hw with ⟨v, hv⟩ | ⟨front, v, m, mask, value, key, rfl, hv, hrest⟩ |
        ⟨front, rest, v, rfl, hv, hwhole⟩
      · exact .inl ⟨v, (hfollow path).trans hv⟩
      · exact .inr (.inl
          ⟨step :: front, v, m, mask, value, key, rfl, (hfollow front).trans hv, hrest⟩)
      · exact .inr (.inr ⟨step :: front, rest, v, rfl, (hfollow front).trans hv, hwhole⟩)
    · exact .inr (.inr ⟨[], step :: path, t, rfl, rfl, hwhole⟩)
    · obtain ⟨m, mask, value, key, ht, rfl, hkey, rfl⟩ := hstamps
      obtain rfl := Json.eq_nil_of_follow? (v := .str m.name) nofun nofun hw
      exact .inr (.inl ⟨[], t, m, mask, value, key, rfl, rfl, ht, hkey⟩)

end Task

end Marshal

end FieldMask
