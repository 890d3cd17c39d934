import FieldMask.Marshal
import FieldMask.Proofs.Model.Flat

/-!
# Steps of marshalling

What marshalling does with a value of each form, one equation for each: an object gives the entries
of the fields that come out (`model_object`), an array the outcomes of its items, and a field goes
on with its value as its shape says.
-/

namespace FieldMask

namespace Marshal

variable {r : Registry} {skipNone : Bool} {m : Model} {mask : Option Mask} {place : Pointer}
  {value : Json} {field : Field}

/-- What comes out for a named field of the members of an object. -/
def output (r : Registry) (skipNone : Bool) (name : String) (place : Pointer) (members : Members)
    (e : String × Field) : Result Json :=
  if e.2.discriminator then .ok (.str name)
  else match Json.atPath? members (sourceOf e.1 e.2) with
    | some v => fieldValue r skipNone e.2 (place.child e.1) v
    | none => absent e.2 (place.child e.1)

/-- What comes out for a named field, with its name. -/
def entry (r : Registry) (skipNone : Bool) (name : String) (place : Pointer) (members : Members)
    (e : String × Field) : Result (String × Json) := do
  return (e.1, ← output r skipNone name place members e)

section Output

variable {name : String} {members : Members} {e : String × Field}

theorem output_of_discriminator (h : e.2.discriminator = true) :
    output r skipNone name place members e = .ok (.str name) := by
  rw [output, if_pos h]

theorem output_of_some (h : e.2.discriminator = false) {v : Json}
    (hv : Json.atPath? members (sourceOf e.1 e.2) = some v) :
    output r skipNone name place members e = fieldValue r skipNone e.2 (place.child e.1) v := by
  rw [output, h, hv, if_neg Bool.false_ne_true]

theorem output_of_none (h : e.2.discriminator = false)
    (hv : Json.atPath? members (sourceOf e.1 e.2) = none) :
    output r skipNone name place members e = absent e.2 (place.child e.1) := by
  rw [output, h, hv, if_neg Bool.false_ne_true]

theorem entry_eq_ok {m : String × Json} :
    entry r skipNone name place members e = .ok m ↔
      e.1 = m.1 ∧ output r skipNone name place members e = .ok m.2 := by
  obtain ⟨key, value⟩ := m
  simp [entry, and_comm]

/-- The entries have the names of the fields, and what comes out for each of these. -/
theorem related_of_mapM {fields : Fields} {entries : Members}
    (h : fields.mapM (entry r skipNone name place members) = .ok entries) :
    Keyed.Related
      (fun key field value => output r skipNone name place members (key, field) = .ok value)
      fields entries :=
  (mapM_eq_ok.1 h).imp fun _ _ h => entry_eq_ok.1 h

end Output

/-- The entry, unless it is left out. -/
def kept (skipNone : Bool) (e : String × Json) : Option (String × Json) :=
  if skipNone && isNone e.2 then none else some e

theorem filterMap_kept (entries : Members) :
    entries.filterMap (kept skipNone) = entries.filter fun e => !(skipNone && isNone e.2) := by
  rw [← List.filterMap_eq_filter]
  refine List.filterMap_congr fun e _ => ?_
  cases h : skipNone && isNone e.2 <;> simp [kept, Option.guard, h]

theorem filterMap_kept_false (entries : Members) : entries.filterMap (kept false) = entries :=
  List.filterMap_some

theorem mem_of_mem_kept {e : String × Json} {entries : Members}
    (h : e ∈ entries.filterMap (kept skipNone)) : e ∈ entries := by
  rw [filterMap_kept] at h
  exact List.mem_of_mem_filter h

/-- A value that is neither an array nor an object nor null. -/
def IsBasic (value : Json) : Prop :=
  (∀ items, value ≠ .arr items) ∧ ¬(value.type = .object ∨ value.type = .null)

/-- A value is an array, an object or null, or basic. -/
theorem form_cases (value : Json) :
    (∃ items, value = .arr items) ∨ (value.type = .object ∨ value.type = .null)
      ∨ IsBasic value := by
  by_cases ha : ∃ items, value = .arr items
  · exact .inl ha
  · by_cases ho : value.type = .object ∨ value.type = .null
    · exact .inr (.inl ho)
    · exact .inr (.inr ⟨fun items h => ha ⟨items, h⟩, ho⟩)

theorem sizeOf_item_lt {items : List Json} {x : Json × Nat} (h : x ∈ items.zipIdx) :
    sizeOf x.1 < sizeOf (Json.arr items) := by
  have := List.sizeOf_lt_of_mem (List.fst_mem_of_mem_zipIdx h)
  simp
  omega

@[simp] theorem liftModel_ok {α : Type} {a : α} : liftModel (.ok a) = .ok a := rfl

/-! ## Models that are looked up -/

/-- A polymorphic value is matched with a registered model that its tag is mapped to. -/
theorem exists_find?_of_matchedModel {mapping : NameMap String}
    (h : matchedModel r mapping place value = .ok m) :
    ∃ tag name, mapping.find? tag = some name ∧ r.find? name = some m := by
  obtain ⟨ancestor, -, h⟩ := bind_eq_ok.1 h
  obtain ⟨flat, -, h⟩ := bind_eq_ok.1 h
  dsimp only at h
  split at h
  · rename_i name htag
    obtain ⟨tag, -, htag⟩ := Option.bind_eq_some_iff.1 htag
    exact ⟨tag, name, htag, Registry.lookup_eq_ok.1 (mapError_eq_ok.1 h)⟩
  · cases h

/-! ## Models -/

theorem model_object (h : value.type = .object ∨ value.type = .null) :
    model r skipNone m mask place value = do
      let flat ← liftModel (r.resolve m)
      let fields ← outputFields r flat mask place
      let entries ← fields.mapM (entry r skipNone flat.name place value.membersOrNone)
      return .obj (entries.filterMap (kept skipNone)) := by
  rw [model]
  · refine (if_pos h).trans ?_
    refine bind_congr fun flat => bind_congr fun fields => ?_
    rw [filterMapM_eq (p := kept skipNone)
      (f := entry r skipNone flat.name place value.membersOrNone), bind_assoc]
    · rfl
    · rintro ⟨name, field⟩
      dsimp only [entry, output]
      by_cases hd : field.discriminator = true
      · rw [if_pos hd, if_pos hd]
        rfl
      · rw [if_neg hd, if_neg hd]
        cases Json.atPath? value.membersOrNone (sourceOf name field) <;> rw [bind_assoc] <;> rfl
  · rintro items rfl
    rcases h with h | h <;> cases h

theorem model_object_eq_ok {out : Json} (h : value.type = .object ∨ value.type = .null) :
    model r skipNone m mask place value = .ok out ↔
      ∃ flat fields entries, r.resolve m = .ok flat ∧ outputFields r flat mask place = .ok fields ∧
        fields.mapM (entry r skipNone flat.name place value.membersOrNone) = .ok entries ∧
        .obj (entries.filterMap (kept skipNone)) = out := by
  rw [model_object h]
  simp [liftModel]

theorem model_basic (h : IsBasic value) :
    model r skipNone m mask place value = .error (.invalidValue place .object value.type) := by
  rw [model]
  · exact if_neg h.2
  · exact h.1

theorem modelItems_eq {index : Nat} {items : List Json} :
    modelItems r skipNone m mask place index items
      = (items.zipIdx index).mapM fun x => model r skipNone m mask (place.item x.2) x.1 := by
  induction items generalizing index with
  | nil => rw [modelItems]; rfl
  | cons x xs ih =>
    rw [modelItems, ih, List.zipIdx_cons, List.mapM_cons]

theorem model_arr {items : List Json} :
    model r skipNone m mask place (.arr items) = do
      return .arr (← modelItems r skipNone m mask place 0 items) := by
  rw [model]

/-- A model gives arrays for arrays, and objects for other values. -/
theorem form_of_model {out : Json} (h : model r skipNone m mask place value = .ok out) :
    (∃ items outs, value = .arr items ∧ out = .arr outs) ∨
      (value.type = .object ∨ value.type = .null) ∧ ∃ entries, out = .obj entries := by
  rcases form_cases value with ⟨items, rfl⟩ | ho | hbasic
  · rw [model_arr] at h
    obtain ⟨outs, -, h⟩ := bind_eq_ok.1 h
    exact .inl ⟨items, outs, rfl, (pure_eq_ok.1 h).symm⟩
  · obtain ⟨_, _, entries, -, -, -, rfl⟩ := (model_object_eq_ok ho).1 h
    exact .inr ⟨ho, _, rfl⟩
  · rw [model_basic hbasic] at h
    cases h

theorem model_ne_null : model r skipNone m mask place value ≠ .ok .null := by
  intro h
  rcases form_of_model h with ⟨_, _, -, hout⟩ | ⟨-, _, hout⟩
  · cases hout
  · cases hout

/-! ## Fields -/

theorem absent_of_default (h : field.default = none) (place : Pointer) :
    absent field place = .ok .null := by
  unfold absent
  rw [h]
  cases field.shape <;> rfl

theorem fieldValue_null : fieldValue r skipNone field place .null = absent field place := by
  rw [fieldValue]

theorem fieldValue_scalar {kind : Kind} (hv : value ≠ .null) (h : field.shape = .scalar kind) :
    fieldValue r skipNone field place value = scalar field kind place value := by
  rw [fieldValue]
  · rw [h]
  · exact hv

theorem fieldValue_list {items : Field} {least most : Option UInt64} {unique : Bool}
    {values : List Json} (h : field.shape = .list items least most unique) :
    fieldValue r skipNone field place (.arr values) = do
      return .arr (← fieldItems r skipNone items place 0 values) := by
  rw [fieldValue]
  · rw [h]
  · intro hnull
    cases hnull

theorem fieldValue_list_of_not_arr {items : Field} {least most : Option UInt64} {unique : Bool}
    (hv : value ≠ .null) (ha : ∀ values, value ≠ .arr values)
    (h : field.shape = .list items least most unique) :
    fieldValue r skipNone field place value
      = .error (.invalidValue place .array value.type) := by
  rw [fieldValue]
  · rw [h]
    cases value with
    | arr values => exact absurd rfl (ha values)
    | _ => rfl
  · exact hv

theorem arr_of_fieldValue {items : Field} {least most : Option UInt64} {unique : Bool} {out : Json}
    (hv : value ≠ .null) (h : field.shape = .list items least most unique)
    (ho : fieldValue r skipNone field place value = .ok out) : ∃ values, value = .arr values := by
  by_cases ha : ∃ values, value = .arr values
  · exact ha
  · rw [fieldValue_list_of_not_arr hv (fun values h => ha ⟨values, h⟩) h] at ho
    cases ho

theorem fieldValue_nested {target : Target} {asList : Bool} (hv : value ≠ .null)
    (h : field.shape = .nested target asList) :
    fieldValue r skipNone field place value = (do
      let target ← targetModel r target
      if asList && value.items?.isNone then throw (.invalidValue place .array value.type)
      model r skipNone target none place value) := by
  rw [fieldValue]
  · rw [h]
  · exact hv

theorem fieldValue_nested_eq_ok {target : Target} {asList : Bool} {out : Json}
    (hv : value ≠ .null) (h : field.shape = .nested target asList) :
    fieldValue r skipNone field place value = .ok out ↔
      ¬(asList && value.items?.isNone) = true ∧ ∃ m, targetModel r target = .ok m ∧
        model r skipNone m none place value = .ok out := by
  rw [fieldValue_nested hv h]
  by_cases hlist : (asList && value.items?.isNone) = true
  · simp [hlist]
  · simp [hlist]

theorem fieldValue_polymorph {mapping : NameMap String} (hv : value ≠ .null)
    (h : field.shape = .polymorph mapping) :
    fieldValue r skipNone field place value = (do
      let target ← matchedModel r mapping place value
      model r skipNone target field.mask place value) := by
  rw [fieldValue]
  · rw [h]
  · exact hv

theorem fieldItems_eq {index : Nat} {items : List Json} :
    fieldItems r skipNone field place index items
      = (items.zipIdx index).mapM fun x => fieldValue r skipNone field (place.item x.2) x.1 := by
  induction items generalizing index with
  | nil => rw [fieldItems]; rfl
  | cons x xs ih =>
    rw [fieldItems, ih, List.zipIdx_cons, List.mapM_cons]

end Marshal

end FieldMask
