import FieldMask.Proofs.Marshal.Tasks

/-!
# Why marshalling and masking models come to an end

Models may nest themselves and each other, so neither the graph of the models nor the fields get
smaller from one call to the next. What gets smaller is the value that is marshalled, and the
selectors of the mask. For both recursions this is said in the same way: the body of the recursion
is written out with the function to call in it left open, `Calls` is the relation from a call to
those that the body makes, and `Descends` says, without a registry, what every call goes down to.
`recursion_descends` puts these together: the relations lead down, chains of calls are finite, and
marshalling and masking are the only functions that satisfy the equations of their bodies.
-/

namespace FieldMask

/-! ## Recursions -/

/--
A function is made by a recursion that ends: its body makes no calls but those of the relation,
there is no endless chain of them, and so the function is the only one that satisfies the equation.
-/
structure IsRecursion {C : Type} {Out : C → Type} (calls : C → C → Prop)
    (body : ((c : C) → Out c) → (c : C) → Out c) (f : (c : C) → Out c) : Prop where
  consults : ∀ g h c, (∀ d, calls c d → g d = h d) → body g c = body h c
  ends : WellFounded fun d c => calls c d
  solution : ∀ g, body g = g ↔ g = f

theorem isRecursion_of_solution {C : Type} {Out : C → Type} {calls : C → C → Prop}
    {body : ((c : C) → Out c) → (c : C) → Out c} {f : (c : C) → Out c}
    (consults : ∀ g h c, (∀ d, calls c d → g d = h d) → body g c = body h c)
    (ends : WellFounded fun d c => calls c d) (hf : body f = f) : IsRecursion calls body f := by
  refine ⟨consults, ends, fun g => ⟨fun hg => ?_, fun hg => hg ▸ hf⟩⟩
  funext c
  induction c using ends.induction with
  | _ c ih =>
    calc g c
      _ = body g c := (congrFun hg c).symm
      _ = body f c := consults g f c ih
      _ = f c := congrFun hf c

/-! ## Masking models -/

namespace Field

/-- How many lists are around the innermost field. -/
def listDepth : Field → Nat
  | { shape := .list items _ _ _, .. } => items.listDepth + 1
  | _ => 0
termination_by structural field => field

theorem listDepth_of_list {field items : Field} {least most : Option UInt64} {unique : Bool}
    (h : field.shape = .list items least most unique) : field.listDepth = items.listDepth + 1 := by
  cases field
  cases h
  rfl

end Field

namespace Registry

/-- A flat model or a field, with the selectors that it is masked by. -/
inductive MaskTask
  | model (flat : FlatModel) (selection : List Selector)
  | field (field : Field) (selection : List Selector)

namespace MaskTask

/-- What masking makes of it: a masked copy of the model, or a narrowed field. -/
abbrev Outcome : MaskTask → Type
  | model _ _ => Except MaskError Model
  | field _ _ => Except MaskError Field

/-- Mask the model, or narrow the field. -/
def run (r : Registry) (skipMissing : Bool) : (t : MaskTask) → Pointer → t.Outcome
  | model flat selection, place => r.maskFlat skipMissing selection place flat
  | field f selection, place => f.narrow selection place (r.maskTarget skipMissing selection place)

/-- Pick one selector's field, where a function says what is left below nested selectors. -/
def pick (skipMissing : Bool) (flat : FlatModel)
    (below : Field → String → List Selector → Except MaskError Field) (picked : Fields) :
    Selector → Except MaskError Fields
  | .wildcard => .ok picked
  | .leaf name =>
    match flat.find? name with
    | none => .ok (if skipMissing then picked else Keyed.put name .raw picked)
    | some f => .ok (Keyed.put name f picked)
  | .nested name children =>
    match flat.find? name with
    | none => .ok (if skipMissing then picked else Keyed.put name .raw picked)
    | some f => do return Keyed.put name (← below f name children) picked

/-- One round of the recursion, with the function to call for what is below left open. -/
def body (r : Registry) (skipMissing : Bool) (go : (t : MaskTask) → Pointer → t.Outcome) :
    (t : MaskTask) → Pointer → t.Outcome
  | model flat selection, place => do
    let below (f : Field) (name : String) (children : List Selector) : Except MaskError Field :=
      go (field f children) (place.child name)
    let picked ← selection.foldlM (pick skipMissing flat below) []
    return maskedCopy flat (addRest selection flat picked)
  | field f selection, place =>
    match f.shape with
    | .scalar kind =>
      if kind.isOpaque then .ok { f with mask := some ⟨selection⟩ }
      else .error (.inconsistent ⟨place⟩)
    | .list items least most unique => do
      let items : Field ← go (field items selection) place
      return { f with shape := .list items least most unique }
    | .nested target asList => do
      let flat ← liftModel (r.resolveTarget target)
      let copy : Model ← go (model flat selection) place
      return { f with shape := .nested (.masked copy) asList }
    | .polymorph _ => .ok { f with mask := some ⟨selection⟩ }

/-- The calls that a round makes. -/
inductive Calls (r : Registry) : MaskTask → MaskTask → Prop
  | children {flat : FlatModel} {selection children : List Selector} {name : String} {f : Field}
      (hs : .nested name children ∈ selection) (hf : flat.find? name = some f) :
      Calls r (model flat selection) (field f children)
  | items {f items : Field} {least most : Option UInt64} {unique : Bool} {selection : List Selector}
      (hs : f.shape = .list items least most unique) :
      Calls r (field f selection) (field items selection)
  | target {f : Field} {target : Target} {asList : Bool} {flat : FlatModel}
      {selection : List Selector} (hs : f.shape = .nested target asList)
      (hflat : r.resolveTarget target = .ok flat) :
      Calls r (field f selection) (model flat selection)

/-- From a model it goes down in the selectors, and from a field in its lists, or to a model. -/
inductive Descends : MaskTask → MaskTask → Prop
  | children {flat : FlatModel} {selection children : List Selector} {name : String} {f : Field}
      (hs : .nested name children ∈ selection) : Descends (model flat selection) (field f children)
  | items {f items : Field} {selection : List Selector} (h : items.listDepth < f.listDepth) :
      Descends (field f selection) (field items selection)
  | target {f : Field} {flat : FlatModel} {selection : List Selector} :
      Descends (field f selection) (model flat selection)

theorem Calls.descends {r : Registry} {t u : MaskTask} (h : Calls r t u) : Descends t u := by
  cases h with
  | children hs => exact .children hs
  | items hs => exact .items (by rw [Field.listDepth_of_list hs]; exact Nat.lt_succ_self _)
  | target => exact .target

/-- The size of the selectors, and how many lists are to be opened before the next model. -/
noncomputable def rank : MaskTask → Nat × Nat
  | model _ selection => (sizeOf selection, 0)
  | field f selection => (sizeOf selection, f.listDepth + 1)

theorem wellFounded_descends : WellFounded fun u t => Descends t u := by
  refine Subrelation.wf (fun {u t} h => ?_)
    (InvImage.wf rank (Prod.lex ⟨_, wellFounded_lt⟩ ⟨_, wellFounded_lt⟩).wf)
  cases h with
  | children hs => exact Prod.Lex.left _ _ (Selector.sizeOf_children_lt hs)
  | items h => exact Prod.Lex.right _ (Nat.succ_lt_succ h)
  | target => exact Prod.Lex.right _ (Nat.succ_pos _)

/-- Picking by narrowed fields is picking. -/
theorem pick_run (r : Registry) (skipMissing : Bool) (flat : FlatModel) (place : Pointer) :
    pick skipMissing flat
        (fun f name children => run r skipMissing (field f children) (place.child name))
      = r.pickField skipMissing place flat := by
  funext picked s
  cases s with
  | wildcard => rw [pickField_wildcard]; rfl
  | leaf name => rw [pickField]; rfl
  | nested name children => rw [pickField]; rfl

theorem body_run (r : Registry) (skipMissing : Bool) :
    body r skipMissing (run r skipMissing) = run r skipMissing := by
  funext t place
  cases t with
  | model flat selection =>
    rw [body, run, maskFlat, pickFields_eq_foldlM, ← pick_run]
  | field f selection =>
    rw [body, run]
    cases hs : f.shape with
    | scalar kind => rw [Field.narrow_scalar hs, hs]
    | list items least most unique =>
      rw [Field.narrow_list hs]
      rfl
    | nested target asList =>
      rw [Field.narrow_nested hs, maskTarget, bind_assoc]
      rfl
    | polymorph mapping => rw [Field.narrow_polymorph hs, hs]

/-- **Masking is a recursion that ends**, whatever models the registry has. -/
theorem isRecursion (r : Registry) (skipMissing : Bool) :
    IsRecursion (Calls r) (body r skipMissing) (run r skipMissing) := by
  refine isRecursion_of_solution (fun g h t hcalls => ?_)
    (Subrelation.wf Calls.descends wellFounded_descends) (body_run r skipMissing)
  funext place
  cases t with
  | model flat selection =>
    rw [body, body, foldlM_congr_of_mem]
    intro s hs picked
    cases s with
    | wildcard => rfl
    | leaf name => rfl
    | nested name children =>
      rw [pick, pick]
      cases hf : flat.find? name with
      | none => rfl
      | some f =>
        dsimp only
        rw [hcalls _ (.children hs hf)]
  | field f selection =>
    rw [body, body]
    cases hs : f.shape with
    | scalar kind => rfl
    | list items least most unique =>
      dsimp only
      rw [hcalls _ (.items hs)]
    | nested target asList =>
      refine bind_congr_of_ok fun flat hflat => ?_
      rw [hcalls _ (.target hs (mapError_eq_ok.1 hflat))]
    | polymorph mapping => rfl

end MaskTask

end Registry

/-! ## Marshalling -/

namespace Json

/-- The value is inside of the other one. -/
def IsProperPart (part whole : Json) : Prop := part.IsPart whole ∧ part ≠ whole

theorem IsPart.sizeOf_le {part whole : Json} (h : part.IsPart whole) :
    part = whole ∨ sizeOf part < sizeOf whole := by
  induction h with
  | whole => exact .inl rfl
  | @item x items hx _ ih =>
    have := List.sizeOf_lt_of_mem hx
    have hx : sizeOf x < sizeOf (Json.arr items) := by
      simp
      omega
    rcases ih with rfl | ih
    · exact .inr hx
    · exact .inr (ih.trans hx)
  | @member x key members hx _ ih =>
    have := List.sizeOf_lt_of_mem hx
    have hx : sizeOf x < sizeOf (Json.obj members) := by
      simp at this ⊢
      omega
    rcases ih with rfl | ih
    · exact .inr hx
    · exact .inr (ih.trans hx)

theorem IsProperPart.sizeOf_lt {part whole : Json} (h : part.IsProperPart whole) :
    sizeOf part < sizeOf whole :=
  h.1.sizeOf_le.resolve_left h.2

theorem isProperPart_of_mem {x : Json} {items : List Json} (h : x ∈ items) :
    x.IsProperPart (.arr items) := by
  refine ⟨.item h .whole, fun heq => ?_⟩
  have := List.sizeOf_lt_of_mem h
  have := congrArg sizeOf heq
  simp at this
  omega

theorem isProperPart_of_atPath? {value part : Json} {key : String}
    (h : atPath? value.membersOrNone key = some part) : part.IsProperPart value :=
  ⟨isPart_of_atPath? h, fun heq => (heq ▸ sizeOf_atPath?_membersOrNone_lt h).false⟩

end Json

namespace Marshal

namespace Task

/-- One round of the recursion, with the function to call for the parts left open. -/
def body (r : Registry) (skipNone : Bool) (go : Task → Pointer → Result Json) :
    Task → Pointer → Result Json
  | model m mask (.arr items), place => do
    return .arr (← items.zipIdx.mapM fun x => go (model m mask x.1) (place.item x.2))
  | model m mask value, place =>
    if value.type = .object ∨ value.type = .null then do
      let flat ← liftModel (r.resolve m)
      let fields ← outputFields r flat mask place
      let entries ← fields.mapM fun e => do
        if e.2.discriminator then return (e.1, .str flat.name)
        else return (e.1, ← go (field e.2 (found value e.1 e.2)) (place.child e.1))
      return .obj (entries.filterMap (kept skipNone))
    else .error (.invalidValue place .object value.type)
  | field f .null, place => absent f place
  | field f value, place =>
    match f.shape with
    | .scalar kind => scalar f kind place value
    | .list items _ _ _ =>
      match value with
      | .arr values => do
        return .arr (← values.zipIdx.mapM fun x => go (field items x.1) (place.item x.2))
      | value => .error (.invalidValue place .array value.type)
    | .nested target asList => do
      let target ← targetModel r target
      if asList && value.items?.isNone then throw (.invalidValue place .array value.type)
      go (model target none value) place
    | .polymorph mapping => do
      let target ← matchedModel r mapping place value
      go (model target f.mask value) place

/-- The calls that a round makes. -/
inductive Calls (r : Registry) : Task → Task → Prop
  | item {m : Model} {mask : Option Mask} {items : List Json} {x : Json} (hx : x ∈ items) :
      Calls r (model m mask (.arr items)) (model m mask x)
  | entry {m : Model} {mask : Option Mask} {value : Json} {fields : Fields} {name : String}
      {f : Field} (hfields : fieldsOf r m mask = .ok fields) (hf : (name, f) ∈ fields)
      (hd : f.discriminator = false) : Calls r (model m mask value) (field f (found value name f))
  | listItem {f items : Field} {least most : Option UInt64} {unique : Bool} {values : List Json}
      {x : Json} (hs : f.shape = .list items least most unique) (hx : x ∈ values) :
      Calls r (field f (.arr values)) (field items x)
  | nested {f : Field} {target : Target} {asList : Bool} {m : Model} {value : Json}
      (hv : value ≠ .null) (hs : f.shape = .nested target asList)
      (hm : targetModel r target = .ok m) : Calls r (field f value) (model m none value)
  | polymorph {f : Field} {mapping : NameMap String} {m : Model} {value : Json}
      (hv : value ≠ .null) (hs : f.shape = .polymorph mapping)
      (hm : matchedModel r mapping .root value = .ok m) :
      Calls r (field f value) (model m f.mask value)

/--
It goes down to what is inside of the value, or to a field without a value, or it goes on from a
field that has a value to a model for the same value.
-/
inductive Descends : Task → Task → Prop
  | item {m : Model} {mask : Option Mask} {value part : Json} (h : part.IsProperPart value) :
      Descends (model m mask value) (model m mask part)
  | entry {m : Model} {mask : Option Mask} {value part : Json} {f : Field}
      (h : part.IsProperPart value) : Descends (model m mask value) (field f part)
  | missing {m : Model} {mask : Option Mask} {value : Json} {f : Field} :
      Descends (model m mask value) (field f .null)
  | listItem {f items : Field} {value part : Json} (h : part.IsProperPart value) :
      Descends (field f value) (field items part)
  | target {f : Field} {m : Model} {mask : Option Mask} {value : Json} (hv : value ≠ .null) :
      Descends (field f value) (model m mask value)

theorem Calls.descends {r : Registry} {t u : Task} (h : Calls r t u) : Descends t u := by
  cases h with
  | item hx => exact .item (Json.isProperPart_of_mem hx)
  | @entry m mask value fields name f =>
    cases hv : Json.atPath? value.membersOrNone (sourceOf name f) with
    | none =>
      rw [found_of_none hv]
      exact .missing
    | some part =>
      rw [found_of_some hv]
      exact .entry (Json.isProperPart_of_atPath? hv)
  | listItem hs hx => exact .listItem (Json.isProperPart_of_mem hx)
  | nested hv => exact .target hv
  | polymorph hv => exact .target hv

/-- Null is at the bottom for fields, missing values are taken for it. -/
theorem not_calls_null {r : Registry} {f : Field} {t : Task} : ¬Calls r (field f .null) t := by
  intro h
  cases h with
  | nested hv => exact hv rfl
  | polymorph hv => exact hv rfl

/-- The size of the value, counted up by one until a field has handed it on. -/
noncomputable def rank : Task → Nat
  | model _ _ value => 2 * sizeOf value
  | field _ .null => 0
  | field _ value => 2 * sizeOf value + 1

theorem rank_field_le (f : Field) (value : Json) : rank (field f value) ≤ 2 * sizeOf value + 1 := by
  cases value with
  | null => exact Nat.zero_le _
  | _ => exact Nat.le_refl _

theorem rank_field {f : Field} {value : Json} (hv : value ≠ .null) :
    rank (field f value) = 2 * sizeOf value + 1 := by
  cases value with
  | null => exact absurd rfl hv
  | _ => rfl

theorem Descends.rank_lt {t u : Task} (h : Descends t u) : rank u < rank t := by
  cases h with
  | item h =>
    have := h.sizeOf_lt
    rw [rank, rank]
    omega
  | @entry m mask value part f h =>
    have := h.sizeOf_lt
    have := rank_field_le f part
    rw [rank]
    omega
  | @missing m mask value f =>
    have : 0 < sizeOf value := by cases value <;> simp
    rw [rank, rank]
    omega
  | @listItem f items value part h =>
    have hlt := h.sizeOf_lt
    -- there is nothing inside of null, so the field has a value
    have hv : value ≠ .null := by
      rintro rfl
      cases h.1
      exact h.2 rfl
    have := rank_field_le items part
    rw [rank_field hv]
    omega
  | target hv =>
    rw [rank_field hv, rank]
    omega

theorem wellFounded_descends : WellFounded fun u t => Descends t u :=
  Subrelation.wf Descends.rank_lt (InvImage.wf rank wellFounded_lt)

theorem body_object {r : Registry} {skipNone : Bool} {go : Task → Pointer → Result Json}
    {m : Model} {mask : Option Mask} {value : Json} {place : Pointer}
    (h : value.type = .object ∨ value.type = .null) :
    body r skipNone go (model m mask value) place = (do
      let flat ← liftModel (r.resolve m)
      let fields ← outputFields r flat mask place
      let entries ← fields.mapM fun e => do
        if e.2.discriminator then return (e.1, .str flat.name)
        else return (e.1, ← go (field e.2 (found value e.1 e.2)) (place.child e.1))
      return .obj (entries.filterMap (kept skipNone))) := by
  rw [body]
  · exact if_pos h
  · rintro items rfl
    rcases h with h | h <;> cases h

theorem body_run (r : Registry) (skipNone : Bool) :
    (body r skipNone fun t place => t.run r skipNone place)
      = fun t place => t.run r skipNone place := by
  funext t place
  cases t with
  | model m mask value =>
    rw [run]
    rcases form_cases value with ⟨items, rfl⟩ | ho | hbasic
    · rw [body, model_arr, modelItems_eq]
      rfl
    · rw [body_object ho, model_object ho]
      refine bind_congr fun flat => bind_congr fun fields => ?_
      refine congrArg (· >>= _) (mapM_congr_of_mem fun e _ => ?_)
      by_cases hd : e.2.discriminator = true
      · rw [if_pos hd, entry, output_of_discriminator hd]
        rfl
      · rw [if_neg hd, entry, output_eq_fieldValue (Bool.eq_false_of_not_eq_true hd), run]
    · rw [body, model_basic hbasic]
      · exact if_neg hbasic.2
      · exact hbasic.1
  | field f value =>
    rw [run]
    by_cases hv : value = .null
    · rw [hv, body, fieldValue_null]
    · rw [body]
      · cases hs : f.shape with
        | scalar kind => rw [fieldValue_scalar hv hs]
        | list items least most unique =>
          cases value with
          | arr values =>
            rw [fieldValue_list hs, fieldItems_eq]
            rfl
          | _ => rw [fieldValue_list_of_not_arr hv (fun _ h => by cases h) hs]
        | nested target asList =>
          rw [fieldValue_nested hv hs]
          rfl
        | polymorph mapping =>
          rw [fieldValue_polymorph hv hs]
          rfl
      · exact hv

/-- **Marshalling is a recursion that ends**, whatever models the registry has. -/
theorem isRecursion (r : Registry) (skipNone : Bool) :
    IsRecursion (Calls r) (body r skipNone) fun t place => t.run r skipNone place := by
  refine isRecursion_of_solution (fun g h t hcalls => ?_)
    (Subrelation.wf Calls.descends wellFounded_descends) (body_run r skipNone)
  funext place
  cases t with
  | model m mask value =>
    rcases form_cases value with ⟨items, rfl⟩ | ho | hbasic
    · rw [body, body, mapM_congr_of_mem]
      intro x hx
      rw [hcalls _ (.item (List.fst_mem_of_mem_zipIdx hx))]
    · rw [body_object ho, body_object ho]
      refine bind_congr_of_ok fun flat hflat => bind_congr_of_ok fun fields hfields => ?_
      refine congrArg (· >>= _) (mapM_congr_of_mem fun e he => ?_)
      by_cases hd : e.2.discriminator = true
      · rw [if_pos hd, if_pos hd]
      · have hout := fieldsOf_eq_ok (mapError_eq_ok.1 hflat) hfields
        rw [if_neg hd, if_neg hd, hcalls _ (.entry hout he (Bool.eq_false_of_not_eq_true hd))]
    · rw [body, body]
      · rw [if_neg hbasic.2, if_neg hbasic.2]
      · exact hbasic.1
      · exact hbasic.1
  | field f value =>
    by_cases hv : value = .null
    · rw [hv, body, body]
    · rw [body, body]
      · cases hs : f.shape with
        | scalar kind => rfl
        | list items least most unique =>
          cases value with
          | arr values =>
            dsimp only
            rw [mapM_congr_of_mem]
            intro x hx
            rw [hcalls _ (.listItem hs (List.fst_mem_of_mem_zipIdx hx))]
          | _ => rfl
        | nested target asList =>
          refine bind_congr_of_ok fun m hm => ?_
          rw [hcalls _ (.nested hv hs hm)]
        | polymorph mapping =>
          refine bind_congr_of_ok fun m hm => ?_
          rw [hcalls _ (.polymorph hv hs (matchedModel_root hm))]
      · exact hv
      · exact hv

end Task

end Marshal

/--
**Marshalling and masking come to an end**, whatever models the registry has, nested in each other
or in themselves. Each of the two is the only function that satisfies the equations of its body, and
its chains of calls are finite. A call of marshalling goes down to what is inside of the value, or
to a field without a value, which makes no calls, or it goes on once from a field that has a value
to a model for it. A call of masking goes down from a model to the children of a nested selector,
and from a field to the items of a list, of which it has only so many, or to a model for the same
selectors.
-/
theorem recursion_descends (r : Registry) :
    ((∀ skipNone, IsRecursion (Marshal.Task.Calls r) (Marshal.Task.body r skipNone)
        fun t place => t.run r skipNone place)
      ∧ (∀ t u, Marshal.Task.Calls r t u → t.Descends u)
      ∧ ∀ f t, ¬Marshal.Task.Calls r (.field f .null) t)
    ∧ (∀ skipMissing, IsRecursion (Registry.MaskTask.Calls r)
        (Registry.MaskTask.body r skipMissing) (Registry.MaskTask.run r skipMissing))
      ∧ ∀ t u, Registry.MaskTask.Calls r t u → t.Descends u :=
  ⟨⟨Marshal.Task.isRecursion r, fun _ _ h => h.descends, fun _ _ => Marshal.Task.not_calls_null⟩,
    Registry.MaskTask.isRecursion r, fun _ _ h => h.descends⟩

end FieldMask
