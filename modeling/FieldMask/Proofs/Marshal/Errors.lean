import FieldMask.Proofs.Marshal.Steps
import FieldMask.Proofs.Model.Sound

/-!
# Errors of marshalling

Marshalling against a sound model of a sound registry is refused for the value or the mask alone:
every model that it looks up is registered, every model that it comes to flattens, and the models of
every polymorphic field that it meets have a common ancestor (`marshal_fair`).
-/

namespace FieldMask

/-- The error is one of the value, or of a mask that selects below a scalar. -/
def MarshalError.IsOfValue : MarshalError → Prop
  | .invalidValue _ _ _ => True
  | .unmatchedType _ _ => True
  | .mask e => e.IsInconsistent
  | .model _ => False

/-- The computation does not fail for the models. -/
abbrev Marshal.Fair {α : Type} (P : α → Prop) (x : Marshal.Result α) : Prop :=
  Ends P MarshalError.IsOfValue x

namespace Marshal

variable {r : Registry} {skipNone : Bool} {place : Pointer}

/-! ## Parts that look no model up -/

theorem coerce_fair (kind : Kind) (place : Pointer) (value : Json) :
    Fair (fun _ => True) (coerce kind place value) := by
  unfold coerce
  cases kind.coerce value with
  | ok out => exact trivial
  | error expected => exact trivial

theorem absent_fair (field : Field) (place : Pointer) :
    Fair (fun _ => True) (absent field place) := by
  unfold absent
  split
  · exact coerce_fair _ _ _
  · exact trivial
  · exact trivial

theorem scalar_fair (field : Field) (kind : Kind) (place : Pointer) (value : Json) :
    Fair (fun _ => True) (scalar field kind place value) := by
  unfold scalar
  split
  · split
    · rename_i mask _
      cases mask.apply true value with
      | ok out => exact trivial
      | error e => exact trivial
    · exact trivial
  · exact coerce_fair _ _ _

/-- What is made of the outcomes of elements is refused for the value if they are. -/
theorem mapM_fair {α β γ : Type} {f : α → Result β} {g : List β → γ} {l : List α}
    (h : ∀ a ∈ l, Fair (fun _ => True) (f a)) :
    Fair (fun _ => True) (do return g (← l.mapM f)) :=
  (ends_mapM h).bind fun _ _ => trivial

/-! ## Looking models up -/

theorem lookup_fair (hr : r.Sound) {name : String} {m : Model} (hm : r.find? name = some m) :
    Fair (Model.Sound r) (liftModel (r.lookup name)) := by
  rw [Registry.lookup_eq_ok.2 hm]
  exact hr name m hm

theorem outputFields_fair (hr : r.Sound) {flat : FlatModel}
    (hs : Registry.Settled flat.name flat.fields) (hf : ∀ e ∈ flat.fields, e.2.Sound r)
    (mask : Option Mask) (place : Pointer) :
    Fair (fun fields => ∀ e ∈ fields, e.2.Sound r) (outputFields r flat mask place) := by
  unfold outputFields
  split
  · rename_i mask _
    have hmask : MasksTo (Model.Sound r) (r.maskFlat true mask.selectors place flat) :=
      Registry.maskFlat_sound hr hs hf _ _
    cases h : r.maskFlat true mask.selectors place flat with
    | error e => exact hmask.of_error h
    | ok masked =>
      -- the fields of the masked copy are those that it flattens to
      obtain ⟨flat', hflat', hf'⟩ := hmask.of_ok h
      obtain ⟨flat'', hflat'', -, hfields, -⟩ := Registry.resolve_maskFlat hs h
      obtain rfl := Except.ok.inj (hflat'.symm.trans hflat'')
      show ∀ e ∈ masked.fields, e.2.Sound r
      rw [← hfields]
      exact hf'
  · exact hf

theorem targetModel_fair (hr : r.Sound) {target : Target} (ht : target.Sound r) :
    Fair (Model.Sound r) (targetModel r target) := by
  cases target with
  | named name =>
    obtain ⟨model, hm⟩ := ht
    exact lookup_fair hr hm
  | masked model => exact ht

theorem matchedModel_fair (hr : r.Sound) {mapping : NameMap String}
    (ha : ∃ ancestor, r.commonAncestor mapping.values = .ok ancestor)
    (hm : ∀ name ∈ mapping.values, ∃ model, r.find? name = some model) (place : Pointer)
    (value : Json) : Fair (Model.Sound r) (matchedModel r mapping place value) := by
  obtain ⟨ancestor, ha⟩ := ha
  obtain ⟨name, hname⟩ := Registry.mem_of_commonAncestor ha
  obtain ⟨flat, hflat, -⟩ := hr name ancestor hname
  rw [matchedModel, ha, liftModel_ok, bind_ok, hflat, liftModel_ok, bind_ok]
  dsimp only
  split
  · rename_i name htag
    obtain ⟨tag, -, hfind⟩ := Option.bind_eq_some_iff.1 htag
    have hmem : name ∈ mapping.values := List.mem_map.2 ⟨_, Keyed.mem_of_lookup hfind, rfl⟩
    obtain ⟨model, hmodel⟩ := hm name hmem
    exact lookup_fair hr hmodel
  · exact trivial

/-! ## Values -/

/-- An output is refused for the value if the values of its field are. -/
theorem entry_fair {name : String} {members : Members} {e : String × Field}
    (h : ∀ v, Json.atPath? members (sourceOf e.1 e.2) = some v →
      ∀ place, Fair (fun _ => True) (fieldValue r skipNone e.2 place v)) :
    Fair (fun _ => True) (entry r skipNone name place members e) := by
  refine Ends.bind (P := fun _ => True) ?_ fun _ _ => trivial
  cases hd : e.2.discriminator with
  | true =>
    rw [output_of_discriminator hd]
    exact trivial
  | false =>
    cases hv : Json.atPath? members (sourceOf e.1 e.2) with
    | none =>
      rw [output_of_none hd hv]
      exact absent_fair _ _
    | some v =>
      rw [output_of_some hd hv]
      exact h v hv _

mutual

theorem model_fair (hr : r.Sound) {m : Model} (hm : m.Sound r) (mask : Option Mask)
    (place : Pointer) (value : Json) :
    Fair (fun _ => True) (model r skipNone m mask place value) := by
  rcases form_cases value with ⟨items, rfl⟩ | ho | hbasic
  · rw [model_arr, modelItems_eq]
    refine mapM_fair fun x hx => ?_
    have := sizeOf_item_lt hx
    exact model_fair hr hm mask (place.item x.2) x.1
  · obtain ⟨flat, hflat, hf⟩ := hm
    rw [model_object ho, hflat, liftModel_ok, bind_ok]
    refine (outputFields_fair hr (Registry.settled_of_resolve hflat) hf mask place).bind
      fun fields hfields => ?_
    refine mapM_fair fun e he => entry_fair fun v hv place => ?_
    have := Json.sizeOf_atPath?_membersOrNone_lt hv
    exact fieldValue_fair hr (hfields e he) place v
  · rw [model_basic hbasic]
    exact trivial
termination_by (sizeOf value, 0)

theorem fieldValue_fair (hr : r.Sound) {field : Field} (hf : field.Sound r) (place : Pointer)
    (value : Json) : Fair (fun _ => True) (fieldValue r skipNone field place value) := by
  by_cases hv : value = .null
  · rw [hv, fieldValue_null]
    exact absent_fair _ _
  · cases hs : field.shape with
    | scalar kind =>
      rw [fieldValue_scalar hv hs]
      exact scalar_fair _ _ _ _
    | list items least most unique =>
      by_cases ha : ∃ values, value = .arr values
      · obtain ⟨values, rfl⟩ := ha
        rw [fieldValue_list hs, fieldItems_eq]
        refine mapM_fair fun x hx => ?_
        have := sizeOf_item_lt hx
        exact fieldValue_fair hr (hf.items hs) (place.item x.2) x.1
      · rw [fieldValue_list_of_not_arr hv (fun values h => ha ⟨values, h⟩) hs]
        exact trivial
    | nested target asList =>
      rw [fieldValue_nested hv hs]
      refine (targetModel_fair hr (hf.target hs)).bind fun m hm => ?_
      dsimp only
      split
      · exact trivial
      · exact model_fair hr hm none place value
    | polymorph mapping =>
      rw [fieldValue_polymorph hv hs]
      obtain ⟨ha, hm⟩ := hf.mapping hs
      refine (matchedModel_fair hr ha hm place value).bind fun m hm => ?_
      exact model_fair hr hm field.mask place value
termination_by (sizeOf value, 1)

end

end Marshal

/-- **Marshalling against a registered model of a sound registry** fails for the value or mask. -/
theorem marshal_fair {r : Registry} (hr : r.Sound) {name : String} {m : Model}
    (hm : r.find? name = some m) (options : MarshalOptions) (value : Json) :
    Marshal.Fair (fun _ => True) (marshal r options name value) := by
  rw [marshal, Registry.lookup_eq_ok.2 hm, Marshal.liftModel_ok, bind_ok]
  exact (Marshal.model_fair hr (hr name m hm) options.mask .root value).bind fun _ _ => trivial

end FieldMask
