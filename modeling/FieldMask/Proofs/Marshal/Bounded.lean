import FieldMask.Proofs.Marshal.Masking
import FieldMask.Proofs.Marshal.Tasks

/-!
# What a mask bounds of what comes out

A mask that is given to marshalling narrows the fields before there is a value, and what comes out
for narrowed fields lies on the paths that the mask admits, with one exception: a default is not
narrowed. Where a null is met, or nothing at all, below a name that the mask goes on below, the
default of the field comes out whole, whatever the mask leaves out of it (`marshal_admits`).

The tasks behind the paths of the outcome are the ones to look at. `Task.Narrowed` says of a task
that it is narrowed to a level of the mask. A step leads from such a task to one that is narrowed to
the level below (`Task.Narrowed.next?`), and where there is no task to go on with, there is a
discriminator, a value that the mask was applied to, or a default.
-/

namespace FieldMask

namespace Registry

variable {r : Registry} {selection : List Selector} {flat : FlatModel}

/-- The named field is what one of the selectors leaves of the field that it names. -/
def Selected (r : Registry) (selection : List Selector) (place : Pointer) (flat : FlatModel)
    (e : String × Field) : Prop :=
  ∃ s ∈ selection, s ≠ .wildcard ∧ s.name = e.1 ∧
    ∃ field, (e.1, field) ∈ flat.fields ∧ r.selectFrom true place field s = .ok e.2

/-- Without the wildcard, whatever a mask picks of a flat model is selected by name. -/
theorem selected_of_maskFlat {place : Pointer} {masked : Model} (hw : .wildcard ∉ selection)
    (h : r.maskFlat true selection place flat = .ok masked) :
    ∀ e ∈ masked.fields, r.Selected selection place flat e := by
  obtain ⟨picked, hp, rfl⟩ := maskFlat_eq_ok.1 h
  rw [maskedCopy, addRest, if_neg (fun h => hw (Selector.any_isWildcard.1 h))]
  rw [pickFields_eq_foldlM] at hp
  refine foldlM_induct (P := fun picked => ∀ e ∈ picked, r.Selected selection place flat e)
    (fun picked s hs out ih hp => ?_) (List.forall_mem_nil _) hp
  have hne : s ≠ .wildcard := fun h => hw (h ▸ hs)
  rw [pickField_eq hne] at hp
  split at hp
  · obtain rfl := Except.ok.inj hp
    exact ih
  · rename_i field hfield
    obtain ⟨narrowed, hn, hp⟩ := bind_eq_ok.1 hp
    obtain rfl := pure_eq_ok.1 hp
    intro e he
    rcases Keyed.mem_put he with rfl | he
    · exact ⟨s, hs, hne, rfl, field, Keyed.mem_of_lookup hfield, hn⟩
    · exact ih e he

end Registry

namespace Selector

/-- Each key of the path is a nested name at its level, so the mask goes on below the path. -/
inductive GoesOn : List Selector → List Json.Step → Prop
  | done {siblings : List Selector} : GoesOn siblings []
  | item {siblings : List Selector} {index : Nat} {path : List Json.Step}
      (h : GoesOn siblings path) : GoesOn siblings (.item index :: path)
  | nested {siblings children : List Selector} {name : String} {path : List Json.Step}
      (hs : .nested name children ∈ siblings) (h : GoesOn children path) :
      GoesOn siblings (.key name :: path)

end Selector

namespace Marshal

/--
The path goes into a default: a front of it, which the mask goes on below, leads to a field that no
value or a null is found for, and what came out there is the default of this field.
-/
def Spills (r : Registry) (t : Task) (siblings : List Selector) (out : Json)
    (path : List Json.Step) : Prop :=
  ∃ front back field default, path = front ++ back ∧ Selector.GoesOn siblings front ∧
    t.follow? r front = some (.field field .null) ∧ field.default = some default ∧
    out.follow? front = some default

variable {r : Registry} {siblings children selection : List Selector} {t u : Task}
  {step : Json.Step} {path : List Json.Step} {out w : Json}

/-! ## Paths into defaults -/

namespace Spills

theorem default {field : Field} (h : field.default = some out) :
    Spills r (.field field .null) siblings out path :=
  ⟨[], path, field, out, rfl, .done, rfl, h, rfl⟩

/-- A way into a default below a step is one from above, if the mask goes on below the step. -/
theorem cons (hu : (t.handOn r).next? r step = some u) (hw : out.next? step = some w)
    (hgoes : ∀ {front}, Selector.GoesOn children front →
      Selector.GoesOn siblings (step :: front))
    (h : Spills r u children w path) : Spills r t siblings out (step :: path) := by
  obtain ⟨front, back, field, default, rfl, hfront, ht, hdefault, hout⟩ := h
  refine ⟨step :: front, back, field, default, rfl, hgoes hfront, ?_, hdefault, ?_⟩
  · rw [Task.follow?_cons, hu, Option.bind_some, ht]
  · rw [Json.follow?_cons, hw, Option.bind_some, hout]

end Spills

/-! ## Narrowed tasks -/

/-- What comes out of a model that is seen through a selection is named by it. -/
theorem named_of_seenThrough (hp : r.Plain) (hn : Selector.NamedEach selection) {name key : String}
    {m m' : Model} {mask : Option Mask} {fields : Fields} {field' : Field}
    (hm : r.find? name = some m) (hseen : SeenThrough r selection m m' mask)
    (hfields : fieldsOf r m' mask = .ok fields) (hf : (key, field') ∈ fields) :
    .leaf key ∈ selection ∨ ∃ children, .nested key children ∈ selection ∧
      (field'.discriminator = false →
        ∃ (field : Field) (p : Pointer), field.Narrows r children p field') := by
  obtain ⟨flat', hflat', hfields⟩ := bind_eq_ok.1 hfields
  obtain ⟨p, flat, masked, hflat, -, hmasked, rfl⟩ :=
    outputFields_of_seenThrough hseen (mapError_eq_ok.1 hflat') hfields
  obtain ⟨s, hs, hw, hname, field, hfield, hselect⟩ :=
    Registry.selected_of_maskFlat (Selector.wildcard_not_mem hn) hmasked _ hf
  cases s with
  | wildcard => exact absurd rfl hw
  | leaf name' =>
    obtain rfl : name' = key := hname
    exact .inl hs
  | nested name' children =>
    obtain rfl : name' = key := hname
    refine .inr ⟨children, hs, fun hd => ⟨field, _, Field.narrows_of_narrow ?_ hselect⟩⟩
    have hdiscriminator : field.discriminator = false := by
      obtain ⟨shape, mask, rfl⟩ := Field.narrow_eq_ok hselect
      exact hd
    obtain ⟨owner, model, howner, hmem⟩ :=
      Registry.registered_of_resolve hm hflat hfield hdiscriminator
    exact hp owner model howner _ hmem

/-- The default of a narrowed field comes out as it is. -/
theorem absent_of_narrows {field field' : Field} {p place : Pointer} {value : Json}
    (hn : field.Narrows r selection p field') (hd : field'.default = some value) :
    absent field' place = .ok value := by
  unfold absent
  rw [hd]
  cases hs : field'.shape with
  | scalar kind =>
    have ho := hn.isOpaque hs
    cases kind <;> first | rfl | cases ho
  | _ => rfl

namespace Task

/-- The task is that of a registered model or one of its fields, narrowed to the selection. -/
inductive Narrowed (r : Registry) (selection : List Selector) : Task → Prop
  | model {name : String} {m m' : Model} {mask : Option Mask} {value : Json}
      (hm : r.find? name = some m) (h : SeenThrough r selection m m' mask) :
      Narrowed r selection (.model m' mask value)
  | field {field field' : Field} {p : Pointer} {value : Json}
      (h : field.Narrows r selection p field') : Narrowed r selection (.field field' value)

namespace Narrowed

theorem handOn (h : t.Narrowed r selection) : (t.handOn r).Narrowed r selection := by
  cases h with
  | model hm h => exact .model hm h
  | @field field field' p value hf =>
    cases htarget : target? r field' value with
    | none =>
      rw [handOn_of_none htarget]
      exact .field hf
    | some target =>
      obtain ⟨m, mask⟩ := target
      rw [handOn_of_target? htarget]
      have hv : value ≠ .null := by
        rintro rfl
        cases target?_null.symm.trans htarget
      cases hf with
      | @scalar field kind hs =>
        have hs : ({ field with mask := some ⟨selection⟩ } : Field).shape = .scalar kind := hs
        cases (target?_scalar hs).symm.trans htarget
      | list => cases (target?_list rfl).symm.trans htarget
      | named hs hm hflat hmasked =>
        rw [target?_nested hv rfl] at htarget
        obtain ⟨rfl, rfl⟩ := Prod.mk.inj (Option.some.inj htarget)
        exact .model hm (.inr ⟨rfl, p, _, hflat, hmasked⟩)
      | @polymorph field mapping hs =>
        have hs : ({ field with mask := some ⟨selection⟩ } : Field).shape = .polymorph mapping := hs
        rw [target?_polymorph hv hs] at htarget
        obtain ⟨matched, hmatched, htarget⟩ := Option.map_eq_some_iff.1 htarget
        obtain ⟨rfl, rfl⟩ := Prod.mk.inj htarget
        obtain ⟨-, name, -, hm⟩ := exists_find?_of_matchedModel (toOption_eq_some.1 hmatched)
        exact .model hm (.inl ⟨rfl, rfl⟩)

/--
**A step** from a narrowed task to an item stays at the level of the mask, and a step to a key that
the mask goes on below leads to a task that is narrowed to the level below.
-/
theorem next? (hp : r.Plain) (hn : Selector.NamedEach selection) (h : t.Narrowed r selection)
    (hu : t.next? r step = some u) :
    (∃ i, step = .item i ∧ u.Narrowed r selection) ∨
      ∃ key, step = .key key ∧ (.leaf key ∈ selection ∨
        ∃ children, .nested key children ∈ selection ∧ u.Narrowed r children) := by
  cases h with
  | model hm hseen =>
    rcases next?_model_eq_some hu with
      ⟨i, x, rfl, rfl⟩ | ⟨fields, f, key, hfields, hf, hd, rfl, rfl⟩
    · exact .inl ⟨i, rfl, .model hm hseen⟩
    · refine .inr ⟨key, rfl, ?_⟩
      rcases named_of_seenThrough hp hn hm hseen hfields hf with hs | ⟨children, hs, hnarrows⟩
      · exact .inl hs
      · obtain ⟨field, p, hnarrows⟩ := hnarrows hd
        exact .inr ⟨children, hs, .field hnarrows⟩
  | field hf =>
    obtain ⟨items, _, _, _, _, i, _, hs, rfl, rfl, -, rfl⟩ := next?_field_eq_some hu
    cases hf with
    | scalar h => cases h.symm.trans hs
    | list _ hi =>
      obtain ⟨rfl, -⟩ := Shape.list.inj hs
      exact .inl ⟨i, rfl, .field hi⟩
    | named => cases hs
    | polymorph h => cases h.symm.trans hs

variable {skipNone : Bool} {place : Pointer}

/-- What is taken whole is a default, or it is admitted, since the mask was applied to it. -/
theorem of_whole (hn : Selector.NamedEach selection) (h : t.Narrowed r selection)
    (hwhole : t.Whole) (hrun : t.run r skipNone place = .ok out)
    (hw : out.follow? path = some w) :
    Selector.Admits selection path ∨ Spills r t selection out path := by
  have hnull {field field' : Field} {p : Pointer} (hf : field.Narrows r selection p field')
      (hrun : absent field' place = .ok out) :
      Selector.Admits selection path ∨ Spills r (.field field' .null) selection out path := by
    cases hd : field'.default with
    | none =>
      rw [absent_of_default hd] at hrun
      obtain rfl := Except.ok.inj hrun
      rw [Json.eq_nil_of_follow? (v := .null) nofun nofun hw]
      exact .inl .done
    | some value =>
      rw [absent_of_narrows hf hd] at hrun
      obtain rfl := Except.ok.inj hrun
      exact .inr (.default hd)
  cases hwhole with
  | default =>
    cases h with
    | field hf =>
      rw [run, fieldValue_null] at hrun
      exact hnull hf hrun
  | @scalar field' kind value hs ho =>
    cases h with
    | field hf =>
      by_cases hv : value = .null
      · rw [run, hv, fieldValue_null] at hrun
        exact hv ▸ hnull hf hrun
      · rw [run, fieldValue_scalar hv hs, scalar, if_pos ho] at hrun
        cases hf with
        | scalar => exact .inl (Selector.admits_of_mapObjects hn (mapError_eq_ok.1 hrun) hw)
        | list => cases hs
        | named => cases hs
        | polymorph h => cases h.symm.trans hs

/-- **What comes out of a narrowed task** lies on admitted paths, or in a default. -/
theorem admits_or_spills (hp : r.Plain) (hn : Selector.NamedEach selection)
    (h : t.Narrowed r selection) (hrun : t.run r skipNone place = .ok out)
    (hw : out.follow? path = some w) :
    Selector.Admits selection path ∨ Spills r t selection out path := by
  induction path generalizing t selection place out with
  | nil => exact .inl .done
  | cons step path ih =>
    obtain ⟨x, hx, hrest⟩ := Option.bind_eq_some_iff.1 hw
    rcases cases_of_next? hrun hx with
      ⟨u, p, hu, hrun⟩ | hwhole | ⟨_, _, _, key, ht, rfl, hkey, rfl⟩
    · rcases h.handOn.next? hp hn hu with ⟨i, rfl, hu'⟩ | ⟨key, rfl, hs | ⟨children, hs, hu'⟩⟩
      · exact (ih hn hu' hrun hrest).imp .item (.cons hu hx .item)
      · exact .inl (.leaf hs)
      · exact (ih (Selector.namedEach_of_nested hn hs) hu' hrun hrest).imp (.nested hs)
          (.cons hu hx (.nested hs))
    · exact h.of_whole hn hwhole hrun hw
    · obtain rfl := Json.eq_nil_of_follow? (v := .str _) nofun nofun hrest
      obtain ⟨fields, f, hfields, hf, -⟩ := hkey
      have hmodel := ht ▸ h.handOn
      cases hmodel with
      | model hm hseen =>
        rcases named_of_seenThrough hp hn hm hseen hfields hf with hs | ⟨children, hs, -⟩
        · exact .inl (.leaf hs)
        · exact .inl (.nested hs .done)

end Narrowed

end Task

end Marshal

/--
**A mask bounds what comes out, but for defaults**: of a loaded registry, whatever is marshalled
with a mask without wildcards has each of its values on a path that the mask admits, or in the
default of a field that is met, with no value or a null, at a place that the mask goes on below.
-/
theorem marshal_admits {document : Json} {r : Registry} (h : Registry.load document = .ok r)
    {mask : Mask} (hm : mask.Named) {skipNone : Bool} {name : String} {value out : Json}
    (hout : marshal r { mask := some mask, skipNone } name value = .ok out)
    {path : List Json.Step} {v : Json} (hv : out.follow? path = some v) :
    ∃ m, r.find? name = some m ∧ (mask.Admits path ∨
      Marshal.Spills r (.model m (some mask) value) mask.selectors out path) := by
  obtain ⟨m, hfind, hout⟩ := bind_eq_ok.1 hout
  obtain ⟨out', hout', hout⟩ := bind_eq_ok.1 hout
  obtain rfl := pure_eq_ok.1 hout
  have hfind : r.find? name = some m := Registry.lookup_eq_ok.1 (mapError_eq_ok.1 hfind)
  have hnarrowed : (Marshal.Task.model m (some mask) value).Narrowed r mask.selectors :=
    .model hfind (.inl ⟨rfl, rfl⟩)
  exact ⟨m, hfind, hnarrowed.admits_or_spills (Registry.of_load h).1 hm hout' hv⟩

/-- A model whose only field has a default with two members. -/
def Registry.patron : Json := .obj [("models", .arr [.obj [("name", .str "Patron"),
  ("fields", .obj [("contact", .obj [("type", .str "raw"),
    ("default", .obj [("mail", .str "none"), ("phone", .str "none")])])])]])]

/-- The mask holds for a contact that is there, and not for the default in place of a null. -/
theorem marshal_admits_patron :
    let mask : Mask := ⟨[.nested "contact" [.leaf "mail"]]⟩
    let value : Json := .arr [.obj [("contact", .obj [("mail", .str "m"), ("phone", .str "p")])],
      .obj [("contact", .null)]]
    let out : Json := .arr [.obj [("contact", .obj [("mail", .str "m")])],
      .obj [("contact", .obj [("mail", .str "none"), ("phone", .str "none")])]]
    let path : List Json.Step := [.item 1, .key "contact", .key "phone"]
    ∃ r m, Registry.load Registry.patron = .ok r ∧ mask.Named ∧
      marshal r { mask := some mask } "Patron" value = .ok out ∧
      out.follow? path = some (.str "none") ∧ r.find? "Patron" = some m ∧ ¬mask.Admits path ∧
      Marshal.Spills r (.model m (some mask) value) mask.selectors out path := by
  intro mask value out path
  have h : ((Registry.load Registry.patron).toOption.any fun r =>
      (marshal r { mask := some mask } "Patron" value).toOption.any (· == out)) = true := by
    cbv
  obtain ⟨r, hl, h⟩ := exists_of_any_toOption h
  obtain ⟨out', hout, heq⟩ := exists_of_any_toOption h
  obtain rfl := eq_of_beq heq
  have hm : mask.Named := ⟨⟨trivial, trivial⟩, trivial⟩
  have hv : out.follow? path = some (.str "none") := rfl
  have hnot : ¬Selector.Admits mask.selectors [.item 1, .key "contact", .key "phone"] := by
    intro h
    cases h with
    | item h => simp [mask, Selector.admits_key_iff] at h
  obtain ⟨m, hfind, hpath⟩ := marshal_admits hl hm hout hv
  exact ⟨r, m, hl, hm, hout, hv, hfind, hnot, hpath.resolve_left hnot⟩

/-- The default that comes out for a null has a member that the mask leaves out. -/
theorem marshal_not_admitted :
    let mask : Mask := ⟨[.nested "contact" [.leaf "mail"]]⟩
    let path : List Json.Step := [.key "contact", .key "phone"]
    ∃ r out v, Registry.load Registry.patron = .ok r ∧ mask.Named ∧
      marshal r { mask := some mask } "Patron" (.obj [("contact", .null)]) = .ok out ∧
      out.follow? path = some v ∧ ¬mask.Admits path := by
  intro mask path
  have h : ((Registry.load Registry.patron).toOption.any fun r =>
      (marshal r { mask := some mask } "Patron" (.obj [("contact", .null)])).toOption.any
        fun out => (out.follow? path).isSome) = true := by
    cbv
  obtain ⟨r, hl, h⟩ := exists_of_any_toOption h
  obtain ⟨out, hout, h⟩ := exists_of_any_toOption h
  obtain ⟨v, hv⟩ := Option.isSome_iff_exists.1 h
  refine ⟨r, out, v, hl, ⟨⟨trivial, trivial⟩, trivial⟩, hout, hv, ?_⟩
  simp [mask, path, Mask.Admits, Selector.admits_key_iff]

end FieldMask
