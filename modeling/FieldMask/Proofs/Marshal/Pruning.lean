import FieldMask.Proofs.Marshal.Tasks

/-!
# Leaving out empty entries

To leave out null and empty entries on the way is to prune the outcome afterwards: from every object
that is emitted for a model the empty entries are deleted, the innermost objects first
(`marshal_skipNone`). Nothing else differs, and an error is the same one.

`Json.pruneAt` deletes from the objects at marked paths what is null or an object without members,
and `Task.emits` marks the paths of an outcome where there is an object for a model. Below a
default, and in the value of an opaque field, no path is marked.
-/

namespace FieldMask

/-! ## Pruning -/

namespace Json

mutual

/--
The value without the entries of the objects at marked paths that are null or have no members, the
innermost first.
-/
def pruneAt (here : List Step → Bool) : Json → Json
  | .arr items => .arr (pruneItems (fun index path => here (.item index :: path)) items)
  | .obj members =>
    let members := pruneMembers (fun key path => here (.key key :: path)) members
    .obj (if here [] then members.filter fun e => e.2 ≠ .null ∧ e.2 ≠ .obj [] else members)
  | value => value

/-- Prune items, each at the paths that are marked for its index. -/
def pruneItems (here : ℕ → List Step → Bool) : List Json → List Json
  | [] => []
  | x :: xs => pruneAt (here 0) x :: pruneItems (fun index => here (index + 1)) xs

/-- Prune the values of members, each at the paths that are marked for its key. -/
def pruneMembers (here : String → List Step → Bool) : Members → Members
  | [] => []
  | (key, x) :: rest => (key, pruneAt (here key) x) :: pruneMembers here rest

end

mutual

/-- Where nothing is marked, nothing is pruned. -/
theorem pruneAt_eq_self {here : List Step → Bool} (h : ∀ path, here path = false) :
    (value : Json) → value.pruneAt here = value
  | .arr items => by
    rw [pruneAt, pruneItems_eq_self fun index path => h (.item index :: path)]
  | .obj members => by
    rw [pruneAt, pruneMembers_eq_self fun key path => h (.key key :: path), h, if_neg nofun]
  | .null | .bool _ | .num _ | .str _ => by
    rw [pruneAt] <;> nofun

theorem pruneItems_eq_self {here : ℕ → List Step → Bool}
    (h : ∀ index path, here index path = false) :
    (items : List Json) → pruneItems here items = items
  | [] => by rw [pruneItems]
  | x :: xs => by
    rw [pruneItems, pruneAt_eq_self (h 0), pruneItems_eq_self fun index => h (index + 1)]

theorem pruneMembers_eq_self {here : String → List Step → Bool}
    (h : ∀ key path, here key path = false) :
    (members : Members) → pruneMembers here members = members
  | [] => by rw [pruneMembers]
  | (key, x) :: rest => by
    rw [pruneMembers, pruneAt_eq_self (h key), pruneMembers_eq_self h]

end

end Json

/-! ## Objects that are emitted for models -/

namespace Marshal

/-- What counts as an empty entry is null, or an object without members. -/
theorem not_isNone_eq (value : Json) :
    (!isNone value) = decide (value ≠ .null ∧ value ≠ .obj []) := by
  cases value with
  | obj members => cases members <;> simp [isNone]
  | _ => simp [isNone]

variable {r : Registry} {m : Model} {mask : Option Mask} {f : Field} {value : Json}

namespace Task

/-- Whether the task is to marshal against a model. -/
def isModel : Task → Bool
  | model _ _ _ => true
  | field _ _ => false

/-- Whether the path leads to what is emitted for a model. -/
def emits (r : Registry) (t : Task) (path : List Json.Step) : Bool :=
  (t.follow? r path).any fun u => (u.handOn r).isModel

variable {t u : Task} {step : Json.Step} {path : List Json.Step}

theorem emits_model_nil : (model m mask value).emits r [] = true := rfl

theorem emits_cons_of_some (h : (t.handOn r).next? r step = some u) :
    t.emits r (step :: path) = u.emits r path := by
  rw [emits, follow?_cons, h, Option.bind_some, emits]

theorem emits_cons_of_none (h : (t.handOn r).next? r step = none) :
    t.emits r (step :: path) = false := by
  rw [emits, follow?_cons, h]
  rfl

theorem emits_append {rest : List Json.Step} (h : t.follow? r path = some u) :
    t.emits r (path ++ rest) = u.emits r rest := by
  rw [emits, follow?_append, h, Option.bind_some, emits]

/-- What is emitted for a field that hands its value on is emitted for the model. -/
theorem emits_handOn : (t.handOn r).emits r = t.emits r := by
  funext path
  cases path with
  | nil => exact congrArg isModel handOn_handOn
  | cons step path => rw [emits, emits, follow?_cons, follow?_cons, handOn_handOn]

/-- Nothing is emitted for a model in what a field has no parts of. -/
theorem emits_eq_false (ht : target? r f value = none)
    (hn : ∀ step, (field f value).next? r step = none) (path : List Json.Step) :
    (field f value).emits r path = false := by
  rw [← handOn_of_none ht] at hn
  cases path with
  | nil => exact congrArg isModel (handOn_of_none ht)
  | cons step path => exact emits_cons_of_none (hn step)

theorem emits_null (path : List Json.Step) : (field f .null).emits r path = false :=
  emits_eq_false target?_null (fun step => by cases step <;> rfl) path

theorem emits_scalar {kind : Kind} (h : f.shape = .scalar kind) (path : List Json.Step) :
    (field f value).emits r path = false := by
  refine emits_eq_false (target?_scalar h) (fun step => ?_) path
  refine Option.eq_none_iff_forall_ne_some.2 fun u hu => ?_
  obtain ⟨_, _, _, _, _, _, _, hs, -⟩ := next?_field_eq_some hu
  cases h.symm.trans hs

/-- Below a default and in the value of an opaque field nothing is emitted for a model. -/
theorem emits_of_whole (h : t.Whole) (path : List Json.Step) : t.emits r path = false := by
  cases h with
  | default => exact emits_null path
  | scalar hs => exact emits_scalar hs path

end Task

/-! ## Down the value -/

variable {place : Pointer}

theorem mapM_pruneItems (here : ℕ → List Json.Step → Bool) {g g' : Json × ℕ → Result Json}
    {items : List Json} {start : ℕ}
    (h : ∀ x ∈ items.zipIdx start, g' x = (g x).map (Json.pruneAt (here x.2))) :
    (items.zipIdx start).mapM g' =
      ((items.zipIdx start).mapM g).map (Json.pruneItems fun index => here (start + index)) := by
  induction items generalizing start with
  | nil => rfl
  | cons x xs ih =>
    obtain ⟨hx, hxs⟩ := List.forall_mem_cons.1 (List.zipIdx_cons ▸ h)
    rw [List.zipIdx_cons, List.mapM_cons, List.mapM_cons, hx, ih hxs]
    cases g (x, start) with
    | error e => rfl
    | ok w =>
      cases (xs.zipIdx (start + 1)).mapM g with
      | error e => rfl
      | ok ws =>
        have hindex (index : ℕ) : start + 1 + index = start + (index + 1) := by omega
        simp only [hindex]
        refine congrArg Except.ok (Eq.symm ?_)
        rw [Json.pruneItems, Nat.add_zero]

theorem mapM_pruneMembers (here : String → List Json.Step → Bool)
    {g g' : String × Field → Result (String × Json)} {fields : Fields}
    (h : ∀ e ∈ fields, g' e = (g e).map fun w => (w.1, w.2.pruneAt (here w.1))) :
    fields.mapM g' = (fields.mapM g).map (Json.pruneMembers here) := by
  induction fields with
  | nil => rfl
  | cons e rest ih =>
    obtain ⟨he, hrest⟩ := List.forall_mem_cons.1 h
    rw [List.mapM_cons, List.mapM_cons, he, ih hrest]
    cases g e with
    | error e => rfl
    | ok w =>
      cases rest.mapM g with
      | error e => rfl
      | ok ws =>
        refine congrArg Except.ok (Eq.symm ?_)
        rw [Json.pruneMembers]

theorem map_pruneAt_eq_self {here : List Json.Step → Bool} (h : ∀ path, here path = false)
    (x : Result Json) : x.map (Json.pruneAt here) = x := by
  cases x with
  | error e => rfl
  | ok out => exact congrArg Except.ok (Json.pruneAt_eq_self h out)

/-- Items that are pruned one by one come out as a pruned array. -/
theorem arr_pruneItems {here : List Json.Step → Bool} {g g' : Json × ℕ → Result Json}
    {items : List Json} (h : ∀ x ∈ items.zipIdx,
      g' x = (g x).map (Json.pruneAt fun path => here (.item x.2 :: path))) :
    (do return Json.arr (← items.zipIdx.mapM g')) =
      (do return Json.arr (← items.zipIdx.mapM g) : Result Json).map (Json.pruneAt here) := by
  rw [mapM_pruneItems (fun index path => here (.item index :: path)) h]
  simp only [Nat.zero_add]
  cases items.zipIdx.mapM g with
  | error e => rfl
  | ok outs =>
    refine congrArg Except.ok (Eq.symm ?_)
    rw [Json.pruneAt]

/--
What comes out for a field of a model is pruned where the field emits something for a model, if so
it is with every value that is found for the field.
-/
theorem output_skipNone {fields : Fields} (hfields : fieldsOf r m mask = .ok fields)
    {e : String × Field} (he : e ∈ fields)
    (ih : ∀ v, Json.atPath? value.membersOrNone (sourceOf e.1 e.2) = some v → ∀ place,
      fieldValue r true e.2 place v =
        (fieldValue r false e.2 place v).map (Json.pruneAt ((Task.field e.2 v).emits r)))
    (name : String) (place : Pointer) :
    output r true name place value.membersOrNone e =
      (output r false name place value.membersOrNone e).map
        (Json.pruneAt fun path => (Task.model m mask value).emits r (.key e.1 :: path)) := by
  cases hd : e.2.discriminator with
  | true =>
    rw [output_of_discriminator hd, output_of_discriminator hd]
    refine (map_pruneAt_eq_self (fun path => ?_) _).symm
    exact Task.emits_cons_of_none (Task.next?_eq_none_of_stamps ⟨fields, e.2, hfields, he, hd⟩)
  | false =>
    have hemits (path : List Json.Step) : (Task.model m mask value).emits r (.key e.1 :: path) =
        (Task.field e.2 (found value e.1 e.2)).emits r path :=
      Task.emits_cons_of_some (Task.next?_key hfields he hd)
    simp only [hemits]
    cases hv : Json.atPath? value.membersOrNone (sourceOf e.1 e.2) with
    | none =>
      rw [output_of_none hd hv, output_of_none hd hv, found_of_none hv]
      exact (map_pruneAt_eq_self Task.emits_null _).symm
    | some v =>
      rw [output_of_some hd hv, output_of_some hd hv, found_of_some hv]
      exact ih v hv _

mutual

/-- To leave out empty entries of a model on the way is to prune what comes out. -/
theorem model_skipNone (m : Model) (mask : Option Mask) (place : Pointer) (value : Json) :
    model r true m mask place value =
      (model r false m mask place value).map
        (Json.pruneAt ((Task.model m mask value).emits r)) := by
  rcases form_cases value with ⟨items, rfl⟩ | ho | hbasic
  · rw [model_arr, model_arr, modelItems_eq, modelItems_eq]
    refine arr_pruneItems fun x hx => ?_
    have hitem : items[x.2]? = some x.1 := List.mem_zipIdx_iff_getElem?.1 hx
    have hemits (path : List Json.Step) : (Task.model m mask (.arr items)).emits r
        (.item x.2 :: path) = (Task.model m mask x.1).emits r path :=
      Task.emits_cons_of_some (Option.map_eq_some_iff.2 ⟨x.1, hitem, rfl⟩)
    have := sizeOf_item_lt hx
    simp only [hemits]
    exact model_skipNone m mask _ x.1
  · rw [model_object ho, model_object ho]
    cases hflat : r.resolve m with
    | error e => rfl
    | ok flat =>
      rw [liftModel_ok, bind_ok, bind_ok]
      cases hfields : outputFields r flat mask place with
      | error e => rfl
      | ok fields =>
        have hentries : ∀ e ∈ fields, entry r true flat.name place value.membersOrNone e =
            (entry r false flat.name place value.membersOrNone e).map fun w => (w.1, w.2.pruneAt
              fun path => (Task.model m mask value).emits r (.key w.1 :: path)) := by
          intro e he
          rw [entry, entry, output_skipNone (fieldsOf_eq_ok hflat hfields) he fun v hv place => ?_]
          · cases output r false flat.name place value.membersOrNone e <;> rfl
          · have := Json.sizeOf_atPath?_membersOrNone_lt hv
            exact fieldValue_skipNone e.2 place v
        rw [bind_ok, bind_ok, mapM_pruneMembers
          (fun key path => (Task.model m mask value).emits r (.key key :: path)) hentries]
        cases fields.mapM (entry r false flat.name place value.membersOrNone) with
        | error e => rfl
        | ok entries =>
          refine congrArg Except.ok ?_
          rw [filterMap_kept, filterMap_kept_false, Json.pruneAt, Task.emits_model_nil, if_pos rfl]
          simp only [Bool.true_and, not_isNone_eq]
  · rw [model_basic hbasic, model_basic hbasic]
    rfl
termination_by (sizeOf value, 0)

/-- To leave out empty entries of a field on the way is to prune what comes out. -/
theorem fieldValue_skipNone (f : Field) (place : Pointer) (value : Json) :
    fieldValue r true f place value =
      (fieldValue r false f place value).map (Json.pruneAt ((Task.field f value).emits r)) := by
  by_cases hv : value = .null
  · rw [hv, fieldValue_null, fieldValue_null, map_pruneAt_eq_self Task.emits_null]
  · cases hs : f.shape with
    | scalar kind =>
      rw [fieldValue_scalar hv hs, fieldValue_scalar hv hs,
        map_pruneAt_eq_self (Task.emits_scalar hs)]
    | list items least most unique =>
      by_cases ha : ∃ values, value = .arr values
      · obtain ⟨values, rfl⟩ := ha
        rw [fieldValue_list hs, fieldValue_list hs, fieldItems_eq, fieldItems_eq]
        refine arr_pruneItems fun x hx => ?_
        have hemits (path : List Json.Step) : (Task.field f (.arr values)).emits r
            (.item x.2 :: path) = (Task.field items x.1).emits r path := by
          refine Task.emits_cons_of_some ?_
          rw [Task.handOn_of_none (target?_list hs)]
          exact Task.next?_list hs (List.mem_zipIdx_iff_getElem?.1 hx)
        have := sizeOf_item_lt hx
        simp only [hemits]
        exact fieldValue_skipNone items _ x.1
      · have ha : ∀ values, value ≠ .arr values := fun values h => ha ⟨values, h⟩
        rw [fieldValue_list_of_not_arr hv ha hs, fieldValue_list_of_not_arr hv ha hs]
        rfl
    | nested target asList =>
      rw [fieldValue_nested hv hs, fieldValue_nested hv hs, ← Task.emits_handOn]
      cases hm : targetModel r target with
      | error e => rfl
      | ok m =>
        have htarget := target?_nested (r := r) hv hs
        rw [hm] at htarget
        rw [Task.handOn_of_target? htarget, bind_ok, bind_ok]
        split
        · rfl
        · exact model_skipNone m none place value
    | polymorph mapping =>
      rw [fieldValue_polymorph hv hs, fieldValue_polymorph hv hs, ← Task.emits_handOn]
      cases hm : matchedModel r mapping place value with
      | error e => rfl
      | ok m =>
        have htarget := target?_polymorph (r := r) hv hs
        rw [matchedModel_root hm] at htarget
        rw [Task.handOn_of_target? htarget, bind_ok, bind_ok]
        exact model_skipNone m f.mask place value
termination_by (sizeOf value, 1)

end

end Marshal

/-! ## The envelope -/

/-- The paths that are marked behind the key of the envelope, if there is one. -/
def MarshalOptions.inside (options : MarshalOptions) (here : List Json.Step → Bool) :
    List Json.Step → Bool :=
  match options.envelope with
  | none => here
  | some key => fun
    | .key k :: path => k == key && here path
    | _ => false

theorem MarshalOptions.wrap_pruneAt (options : MarshalOptions) (here : List Json.Step → Bool)
    (out : Json) :
    options.wrap (out.pruneAt here) = (options.wrap out).pruneAt (options.inside here) := by
  unfold wrap inside
  cases options.envelope with
  | none => rfl
  | some key =>
    simp only
    rw [Json.pruneAt, Json.pruneMembers, Json.pruneMembers]
    simp

/--
**To leave out empty entries is to prune the outcome**: with the option on, marshalling fails just
if it fails with the option off, in the same error, and the outcome is the one with the option off
after the empty entries of the objects that are emitted for models are deleted, the innermost
objects first. No such object is at or below a default or a value of an opaque field.
-/
theorem marshal_skipNone {r : Registry} {name : String} {m : Model} (hm : r.find? name = some m)
    (options : MarshalOptions) (value : Json) :
    let t := Marshal.Task.model m options.mask value
    marshal r { options with skipNone := true } name value =
        (marshal r { options with skipNone := false } name value).map
          (Json.pruneAt (options.inside (t.emits r))) ∧
      ∀ path u, t.follow? r path = some u → u.Whole → ∀ rest, t.emits r (path ++ rest) = false := by
  intro t
  constructor
  · rw [marshal_eq hm, marshal_eq hm, Marshal.model_skipNone]
    cases Marshal.model r false m options.mask .root value with
    | error e => rfl
    | ok out => exact congrArg Except.ok (options.wrap_pruneAt _ out)
  · intro path u hu hwhole rest
    rw [Marshal.Task.emits_append hu]
    exact Marshal.Task.emits_of_whole hwhole rest

/--
A pet's keeper of whom nothing is known goes as a whole, once its own entries are gone; the null
among the toys is an item and stays.
-/
theorem marshal_skipNone_menagerie :
    let keeper : Json := .obj [("name", .null), ("pets", .arr [.obj [("kind", .str "cat"),
      ("keeper", .obj [("name", .null)]), ("toys", .arr [.null])]])]
    let full : Json := .obj [("name", .null), ("pets", .arr [.obj [("kind", .str "Cat"),
      ("keeper", .obj [("name", .null), ("pets", .null)]), ("toys", .arr [.null])]])]
    let out : Json := .obj [("pets", .arr [.obj [("kind", .str "Cat"), ("toys", .arr [.null])]])]
    ∃ r m, Registry.load Registry.menagerie = .ok r ∧ r.find? "Keeper" = some m ∧
      marshal r {} "Keeper" keeper = .ok full ∧
      marshal r { skipNone := true } "Keeper" keeper = .ok out ∧
      full.pruneAt ((Marshal.Task.model m none keeper).emits r) = out := by
  intro keeper full out
  have h : ((Registry.load Registry.menagerie).toOption.any fun r =>
      (marshal r {} "Keeper" keeper).toOption.any (· == full) &&
        (marshal r { skipNone := true } "Keeper" keeper).toOption.any (· == out)) = true := by
    cbv
  obtain ⟨r, hl, h⟩ := exists_of_any_toOption h
  obtain ⟨hfull, hout⟩ := Bool.and_eq_true_iff.1 h
  obtain ⟨full', hfull, heq⟩ := exists_of_any_toOption hfull
  obtain rfl := eq_of_beq heq
  obtain ⟨out', hout, heq⟩ := exists_of_any_toOption hout
  obtain rfl := eq_of_beq heq
  obtain ⟨m, hm, -⟩ := bind_eq_ok.1 hfull
  have hm : r.find? "Keeper" = some m := Registry.lookup_eq_ok.1 (mapError_eq_ok.1 hm)
  have hpruned := (marshal_skipNone hm {} keeper).1
  rw [hfull] at hpruned
  exact ⟨r, m, hl, hm, hfull, hout, Except.ok.inj (hpruned.symm.trans hout)⟩

end FieldMask
