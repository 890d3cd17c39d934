import FieldMask.Proofs.Marshal.Picking
import FieldMask.Proofs.Model.Narrowed
import Mathlib

/-!
# Masking models and masking what comes out

A mask that is given to marshalling is applied to the fields of the model before there is a value,
and a mask that is applied to the outcome filters what came out. For models that declare neither
masks nor defaults other than of scalars, the two agree (`marshal_masked`).

The proof goes down the value: a model that is seen through a selection gives what the selection
makes of the outcome of the model (`model_selects`), because a narrowed field does so
(`fieldValue_selects`). Discriminators need no condition: they come out as the name of the model,
below which no mask selects.
-/

namespace FieldMask

namespace Marshal

variable {r : Registry} {selection : List Selector}

/-! ## Parts of a value -/

/-- The second model with its mask is the first one seen through the selection. -/
def SeenThrough (r : Registry) (selection : List Selector) (m m' : Model) (mask : Option Mask) :
    Prop :=
  (m' = m ∧ mask = some ⟨selection⟩) ∨
    (mask = none ∧ ∃ p flat, r.resolve m = .ok flat ∧ r.maskFlat true selection p flat = .ok m')

/-- The fields that come out are those that the mask selects, whichever way the mask is given. -/
theorem outputFields_of_seenThrough {m m' : Model} {mask : Option Mask}
    (hseen : SeenThrough r selection m m' mask) {flat' : FlatModel}
    (hflat' : r.resolve m' = .ok flat') {place : Pointer} {fields : Fields}
    (h : outputFields r flat' mask place = .ok fields) :
    ∃ p flat masked, r.resolve m = .ok flat ∧ flat.name = flat'.name ∧
      r.maskFlat true selection p flat = .ok masked ∧ masked.fields = fields := by
  rcases hseen with ⟨rfl, rfl⟩ | ⟨rfl, p, flat, hflat, hm⟩
  · obtain ⟨masked, hm, hmasked⟩ := bind_eq_ok.1 h
    exact ⟨place, flat', masked, hflat', rfl, mapError_eq_ok.1 hm, pure_eq_ok.1 hmasked⟩
  · obtain ⟨masked, hmasked, hname, hmfields, hmask⟩ :=
      Registry.resolve_maskFlat (Registry.settled_of_resolve hflat) hm
    obtain rfl := Except.ok.inj (hmasked.symm.trans hflat')
    rw [outputFields, hmask] at h
    exact ⟨p, flat, m', hflat, hname.symm, hm, hmfields.symm.trans (Except.ok.inj h)⟩

/-- An object comes out with the fields that the mask selects. -/
theorem object_of_seenThrough {skipNone : Bool} {m m' : Model} {mask : Option Mask}
    (hseen : SeenThrough r selection m m' mask) {flat : FlatModel} (hflat : r.resolve m = .ok flat)
    {place : Pointer} {value out : Json} (ho : value.type = .object ∨ value.type = .null)
    (h : model r skipNone m' mask place value = .ok out) :
    ∃ p masked entries, r.maskFlat true selection p flat = .ok masked ∧
      masked.fields.mapM (entry r skipNone flat.name place value.membersOrNone) = .ok entries ∧
        .obj (entries.filterMap (kept skipNone)) = out := by
  obtain ⟨flat', fields, entries, hflat', hfields, hentries, hout⟩ := (model_object_eq_ok ho).1 h
  obtain ⟨p, flat'', masked, hflat'', hname, hm, rfl⟩ :=
    outputFields_of_seenThrough hseen hflat' hfields
  obtain rfl := Except.ok.inj (hflat.symm.trans hflat'')
  exact ⟨p, masked, entries, hm, hname ▸ hentries, hout⟩

/--
What a selector leaves of a field yields what it leaves of the value that comes out for the field,
if a selection below the field does so for the value that is found there.
-/
theorem yields_of_selectFrom {name : String} {place p q : Pointer} {members : Members}
    {s : Selector} {field field' : Field} {value value' : Json}
    (hfield : field.discriminator = false → field.isBare = true ∧ field.Plain)
    (ih : ∀ children, s = .nested s.name children → field.discriminator = false →
      ∀ v, Json.atPath? members (sourceOf s.name field) = some v → ∀ place full out,
        fieldValue r false field place v = .ok full → fieldValue r false field' place v = .ok out →
          Selects children full out ∧ (full = .null → out = .null))
    (hout : output r false name place members (s.name, field) = .ok value)
    (hf : r.selectFrom true p field s = .ok field') (hv : s.selectFrom true q value = .ok value') :
    Yields r name place members s.name field' value' := by
  cases s with
  | wildcard =>
    obtain rfl := Except.ok.inj hf
    obtain rfl := Except.ok.inj hv
    exact fun out h => Except.ok.inj (h.symm.trans hout)
  | leaf key =>
    obtain rfl := Except.ok.inj hf
    obtain rfl := Except.ok.inj hv
    exact fun out h => Except.ok.inj (h.symm.trans hout)
  | nested key children =>
    obtain ⟨shape, mask, hkept⟩ := Field.narrow_eq_ok hf
    have hd' : field'.discriminator = field.discriminator := by rw [hkept]
    have hsource : sourceOf key field' = sourceOf key field := by rw [hkept, sourceOf, sourceOf]
    have hnull : value = .null → value' = .null := by
      rintro rfl
      exact (Except.ok.inj hv).symm
    intro out h
    cases hd : field.discriminator with
    | true =>
      -- a mask that selects below the name of the model makes nothing of it
      rw [output_of_discriminator hd] at hout
      obtain rfl := Except.ok.inj hout
      cases hv
    | false =>
      cases hpath : Json.atPath? members (sourceOf key field) with
      | none =>
        have hnarrows := Field.narrows_of_narrow (hfield hd).2 hf
        have hdefault := hnarrows.default_eq_none (hfield hd).1
        have hdefault' := hnarrows.default_eq.trans hdefault
        rw [output_of_none hd hpath, absent_of_default hdefault] at hout
        rw [output_of_none (hd'.trans hd) (hsource ▸ hpath), absent_of_default hdefault'] at h
        rw [hnull (Except.ok.inj hout).symm]
        exact (Except.ok.inj h).symm
      | some v =>
        rw [output_of_some hd hpath] at hout
        rw [output_of_some (hd'.trans hd) (hsource ▸ hpath)] at h
        obtain ⟨hselects, hzero⟩ := ih children rfl hd v hpath _ value out hout h
        by_cases hvalue : value = .null
        · rw [hnull hvalue, hzero hvalue]
        · rw [Selector.selectFrom_nested hvalue] at hv
          exact hselects _ _ hv

/-- A value of an opaque field is filtered as it is. -/
theorem selects_of_scalar {field : Field} {kind : Kind} {place : Pointer} {value full out : Json}
    (ho : kind.isOpaque = true) (hmask : field.mask = none)
    (hfull : scalar field kind place value = .ok full)
    (hout : scalar { field with mask := some ⟨selection⟩ } kind place value = .ok out) :
    full = value ∧ Selects selection full out := by
  rw [scalar, if_pos ho, hmask] at hfull
  rw [scalar, if_pos ho] at hout
  obtain rfl := Except.ok.inj hfull
  refine ⟨rfl, fun place p hp => ?_⟩
  exact Json.mapObjects_unique (Selector.filter_unique selection true) value _ _ _ _
    (mapError_eq_ok.1 hout) hp

/-! ## Down the value -/

/-- Whatever the registered models flatten to is bare. -/
def BareModels (r : Registry) : Prop :=
  ∀ name m flat, r.find? name = some m → r.resolve m = .ok flat → flat.Bare

mutual

/-- A model seen through a selection gives what the selection makes of what the model gives. -/
theorem model_selects (hb : BareModels r) {selection : List Selector} {name : String} {m m' : Model}
    {mask : Option Mask} (hm : r.find? name = some m) (hseen : SeenThrough r selection m m' mask)
    (place : Pointer) (value : Json) {full out : Json}
    (hfull : model r false m none place value = .ok full)
    (hout : model r false m' mask place value = .ok out) : Selects selection full out := by
  rcases form_cases value with ⟨items, rfl⟩ | ho | hbasic
  · rw [model_arr, modelItems_eq] at hfull hout
    obtain ⟨fulls, hfulls, hfull⟩ := bind_eq_ok.1 hfull
    obtain ⟨outs, houts, hout⟩ := bind_eq_ok.1 hout
    obtain rfl := pure_eq_ok.1 hfull
    obtain rfl := pure_eq_ok.1 hout
    refine selects_arr (forall₂_of_mapM hfulls houts fun x hx a b hfull hout => ?_)
    have := sizeOf_item_lt hx
    exact model_selects hb hm hseen _ x.1 hfull hout
  · obtain ⟨flat, fields, members, hflat, hfields, hmembers, rfl⟩ := (model_object_eq_ok ho).1 hfull
    have hbare := hb name m flat hm hflat
    obtain ⟨p, masked, entries, hmasked, hentries, rfl⟩ := object_of_seenThrough hseen hflat ho hout
    rw [outputFields, hbare.mask] at hfields
    obtain rfl := Except.ok.inj hfields
    intro q ps hps
    rw [filterMap_kept_false] at hps
    rw [filterMap_kept_false]
    obtain ⟨selected, hselected, hps⟩ := bind_eq_ok.1 hps
    rw [← pure_eq_ok.1 hps]
    congr 1
    refine eq_of_filter (Registry.settled_of_resolve hflat) hmembers ?_ hmasked hentries hselected
    intro s _ field v field' v' hmem hv hf' hv'
    have hfield := hbare.fields _ hmem
    refine yields_of_selectFrom hfield ?_ hv hf' hv'
    intro children hs hd w hw place' full out hfull hout
    have := Json.sizeOf_atPath?_membersOrNone_lt hw
    rw [hs] at hf'
    have hnarrows := Field.narrows_of_narrow (hfield hd).2 hf'
    exact fieldValue_selects hb (hfield hd).1 hnarrows place' w hfull hout
  · rw [model_basic hbasic] at hfull
    cases hfull
termination_by (sizeOf value, 0)

/-- A narrowed field gives what the selection makes of what the field gives. -/
theorem fieldValue_selects (hb : BareModels r) {selection : List Selector} {field field' : Field}
    (hbare : field.isBare = true) {p : Pointer} (hn : field.Narrows r selection p field')
    (place : Pointer) (value : Json) {full out : Json}
    (hfull : fieldValue r false field place value = .ok full)
    (hout : fieldValue r false field' place value = .ok out) :
    Selects selection full out ∧ (full = .null → out = .null) := by
  by_cases hv : value = .null
  · have hdefault := hn.default_eq_none hbare
    rw [hv, fieldValue_null, absent_of_default hdefault] at hfull
    rw [hv, fieldValue_null, absent_of_default (hn.default_eq.trans hdefault)] at hout
    rw [← Except.ok.inj hfull, ← Except.ok.inj hout]
    exact ⟨selects_null, fun _ => rfl⟩
  · cases hn with
    | @scalar _ kind h ho =>
      have h' : ({ field with mask := some ⟨selection⟩ } : Field).shape = .scalar kind := h
      rw [fieldValue_scalar hv h] at hfull
      rw [fieldValue_scalar hv h'] at hout
      obtain ⟨rfl, hs⟩ := selects_of_scalar ho (Field.isBare_scalar h hbare).1 hfull hout
      exact ⟨hs, fun h => absurd h hv⟩
    | list h hi =>
      obtain ⟨values, rfl⟩ := arr_of_fieldValue hv h hfull
      rw [fieldValue_list h, fieldItems_eq] at hfull
      rw [fieldValue_list rfl, fieldItems_eq] at hout
      obtain ⟨fulls, hfulls, hfull⟩ := bind_eq_ok.1 hfull
      obtain ⟨outs, houts, hout⟩ := bind_eq_ok.1 hout
      obtain rfl := pure_eq_ok.1 hfull
      obtain rfl := pure_eq_ok.1 hout
      refine ⟨selects_arr (forall₂_of_mapM hfulls houts fun x hx a b hfull hout => ?_), ?_⟩
      · have := sizeOf_item_lt hx
        exact (fieldValue_selects hb (Field.isBare_list h hbare).2 hi _ x.1 hfull hout).1
      · intro hnull
        cases hnull
    | named h hm hflat hmasked =>
      obtain ⟨-, target, htarget, hfull⟩ := (fieldValue_nested_eq_ok hv h).1 hfull
      obtain ⟨-, target', htarget', hout⟩ := (fieldValue_nested_eq_ok hv rfl).1 hout
      have htarget := Registry.lookup_eq_ok.1 (mapError_eq_ok.1 htarget)
      obtain rfl := Option.some.inj (hm.symm.trans htarget)
      obtain rfl := Except.ok.inj htarget'
      refine ⟨model_selects hb hm (.inr ⟨rfl, p, _, hflat, hmasked⟩) place value hfull hout, ?_⟩
      rintro rfl
      exact absurd hfull model_ne_null
    | @polymorph _ mapping h =>
      have h' : ({ field with mask := some ⟨selection⟩ } : Field).shape = .polymorph mapping := h
      rw [fieldValue_polymorph hv h, (Field.isBare_polymorph h hbare).1] at hfull
      rw [fieldValue_polymorph hv h'] at hout
      obtain ⟨m, hm, hfull⟩ := bind_eq_ok.1 hfull
      obtain ⟨m', hm', hout⟩ := bind_eq_ok.1 hout
      obtain rfl := Except.ok.inj (hm.symm.trans hm')
      obtain ⟨-, name, -, hname⟩ := exists_find?_of_matchedModel hm
      refine ⟨model_selects hb hname (.inl ⟨rfl, rfl⟩) place value hfull hout, ?_⟩
      rintro rfl
      exact absurd hfull model_ne_null
termination_by (sizeOf value, 1)

end

end Marshal

/--
**Masking the model and masking the outcome agree**: of a registry whose models declare neither
masks nor defaults other than of scalars, a value that is marshalled with a mask comes out as what
the mask selects of the value that is marshalled without one, with members in the same order.
-/
theorem marshal_masked {document : Json} {r : Registry} (h : Registry.load document = .ok r)
    (hb : r.isBare = true) {name : String} {mask : Mask} {value full out p : Json}
    (hfull : marshal r {} name value = .ok full)
    (hout : marshal r { mask := some mask } name value = .ok out)
    (hp : mask.apply true full = .ok p) : out = p := by
  have hbare : Marshal.BareModels r := fun name m flat hm hflat =>
    Registry.bare_of_resolve (Registry.of_load h).1 hb hm hflat
  obtain ⟨m, hm, hfull⟩ := bind_eq_ok.1 hfull
  obtain ⟨m', hm', hout⟩ := bind_eq_ok.1 hout
  obtain rfl := Except.ok.inj (hm.symm.trans hm')
  obtain ⟨full', hfull', hfull⟩ := bind_eq_ok.1 hfull
  obtain ⟨out', hout', hout⟩ := bind_eq_ok.1 hout
  obtain rfl := pure_eq_ok.1 hfull
  obtain rfl := pure_eq_ok.1 hout
  have hfind : r.find? name = some m := Registry.lookup_eq_ok.1 (mapError_eq_ok.1 hm)
  have hseen : Marshal.SeenThrough r mask.selectors m m (some mask) := .inl ⟨rfl, rfl⟩
  exact Marshal.model_selects hbare hfind hseen .root value hfull' hout' .root p hp

theorem marshal_masked_menagerie :
    let keeper : Json := .obj [("name", .str "Ann"), ("pets", .arr [.obj [("kind", .str "cat"),
      ("keeper", .obj [("name", .str "Bob"), ("pets", .null)]),
      ("toys", .arr [.obj [("color", .str "red"), ("size", .str "small")]])]])]
    let mask : Mask := ⟨[.nested "pets" [.nested "toys" [.leaf "size"], .wildcard], .leaf "age"]⟩
    ∃ r full out p, Registry.load Registry.menagerie = .ok r ∧ r.isBare = true ∧
      marshal r {} "Keeper" keeper = .ok full ∧
      marshal r { mask := some mask } "Keeper" keeper = .ok out ∧
      mask.apply true full = .ok p ∧ out = p := by
  intro keeper mask
  have h : ((Registry.load Registry.menagerie).toOption.any fun r => r.isBare &&
      (marshal r { mask := some mask } "Keeper" keeper).toOption.isSome &&
      (marshal r {} "Keeper" keeper).toOption.any fun full =>
        (mask.apply true full).toOption.isSome) = true := by
    cbv
  obtain ⟨r, hl, h⟩ := exists_of_any_toOption h
  obtain ⟨h, hrest⟩ := Bool.and_eq_true_iff.1 h
  obtain ⟨hb, hmasked⟩ := Bool.and_eq_true_iff.1 h
  obtain ⟨out, hout⟩ := exists_of_isSome_toOption hmasked
  obtain ⟨full, hfull, hrest⟩ := exists_of_any_toOption hrest
  obtain ⟨p, hp⟩ := exists_of_isSome_toOption hrest
  exact ⟨r, full, out, p, hl, hb, hfull, hout, hp, marshal_masked hl hb hfull hout hp⟩

end FieldMask
