import FieldMask.Proofs.Loaded
import FieldMask.Proofs.Mask.Canonical
import FieldMask.Proofs.Mask.Paths
import FieldMask.Proofs.Model.Picking

/-!
# Masking a model again

What a mask makes of a model has no more than the mask selects, so that the mask makes the same of
it again (`maskModel_again`). Where the first pass flattens the model that a nested field refers to
by name, the second one flattens the masked copy that the first has put there. The copy flattens to
its own fields, with the defaults of discriminators as they are, and each of them is what its
selector leaves of a field: to be taken again, narrowed to the same selection, or added by the
wildcard.
-/

namespace FieldMask

namespace Selector

variable {siblings : List Selector} {s : Selector} {key : String}

theorem fieldNames_cons :
    fieldNames (s :: siblings)
      = if s.isWildcard then fieldNames siblings else s.name :: fieldNames siblings := by
  cases h : s.isWildcard <;> simp [fieldNames, h]

theorem mem_fieldNames_of_mem (hs : s ∈ siblings) (hw : s ≠ .wildcard) :
    s.name ∈ fieldNames siblings :=
  mem_fieldNames.2 ⟨s, hs, selects_iff.2 ⟨hw, rfl⟩⟩

theorem nodup_fieldNames_of_names (h : (names siblings).Nodup) : (fieldNames siblings).Nodup :=
  h.sublist (List.filter_sublist.map _)

/-- Siblings whose names are distinct, that of the wildcard included, name no field twice. -/
theorem namesOnce_of_wellFormed : ∀ {s : Selector}, s.WellFormed → s.NamesOnce
  | .wildcard, _ => trivial
  | .leaf _, _ => trivial
  | .nested _ children, ⟨_, hn, hc⟩ => by
    refine ⟨nodup_fieldNames_of_names hn, namesOnceEach_iff.2 fun s hs => ?_⟩
    have := List.sizeOf_lt_of_mem hs
    exact namesOnce_of_wellFormed (wellFormedEach_iff.1 hc s hs)

end Selector

/-- A mask that is read from a text names no field twice among siblings. -/
theorem Mask.namesOnce_of_parse {text : String} {mask : Mask} (h : Mask.parse text = .ok mask) :
    mask.NamesOnce := by
  obtain ⟨hn, he⟩ := wellFormed_of_parse h
  refine ⟨Selector.nodup_fieldNames_of_names hn, Selector.namesOnceEach_iff.2 fun s hs => ?_⟩
  exact Selector.namesOnce_of_wellFormed (Selector.wellFormedEach_iff.1 he s hs)

/-! ## Fields -/

/-- A narrowed field stays as it is if the copy that is put into a nested field does. -/
theorem Field.narrow_again {selection : List Selector} {place : Pointer}
    {below : Target → Except MaskError Model}
    (hb : ∀ target model, below target = .ok model → below (.masked model) = .ok model) :
    (field out : Field) → field.narrow selection place below = .ok out →
      out.narrow selection place below = .ok out
  | { shape := .scalar kind, .. }, out, h => by
    rw [narrow_scalar rfl] at h
    split at h
    · rename_i ho
      obtain rfl := Except.ok.inj h
      rw [narrow_scalar rfl, if_pos ho]
    · cases h
  | { shape := .list items least most unique, .. }, out, h => by
    rw [narrow_list rfl] at h
    obtain ⟨items', hitems, h⟩ := bind_eq_ok.1 h
    obtain rfl := pure_eq_ok.1 h
    rw [narrow_list rfl, narrow_again hb items items' hitems]
    rfl
  | { shape := .nested target asList, .. }, out, h => by
    rw [narrow_nested rfl] at h
    obtain ⟨model, hmodel, h⟩ := bind_eq_ok.1 h
    obtain rfl := pure_eq_ok.1 h
    rw [narrow_nested rfl, hb target model hmodel]
    rfl
  | { shape := .polymorph mapping, .. }, out, h => by
    rw [narrow_polymorph rfl] at h
    obtain rfl := Except.ok.inj h
    rw [narrow_polymorph rfl]

namespace Registry

variable {r : Registry} {skipMissing : Bool} {place : Pointer} {flat again : FlatModel}
  {selection : List Selector} {start picked : Fields} {masked : Model} {s : Selector} {key : String}

/-! ## Picking -/

theorem lookup_pickField_of_ne {out : Fields}
    (h : r.pickField skipMissing place flat picked s = .ok out)
    (hk : s ≠ .wildcard → key ≠ s.name) : out.lookup key = picked.lookup key := by
  by_cases hw : s = .wildcard
  · rw [hw, pickField_wildcard] at h
    rw [Except.ok.inj h]
  · rw [pickField_eq hw] at h
    split at h
    · rw [← Except.ok.inj h]
      split
      · rfl
      · rw [Keyed.lookup_put, if_neg (hk hw)]
    · obtain ⟨narrowed, -, h⟩ := bind_eq_ok.1 h
      rw [← pure_eq_ok.1 h, Keyed.lookup_put, if_neg (hk hw)]

/-- Selectors pick nothing but what they name. -/
theorem lookup_pickFields_of_not_mem
    (h : r.pickFields skipMissing place flat start selection = .ok picked)
    (hk : key ∉ Selector.fieldNames selection) : picked.lookup key = start.lookup key := by
  rw [pickFields_eq_foldlM] at h
  refine foldlM_induct (P := fun picked => picked.lookup key = start.lookup key)
    (fun picked s hs out hp hout => ?_) rfl h
  refine (lookup_pickField_of_ne hout fun hw hkey => hk ?_).trans hp
  exact hkey ▸ Selector.mem_fieldNames_of_mem hs hw

/-- Where no name is repeated, each selector leaves what it makes of the field that it names. -/
theorem lookup_pickFields (hn : (Selector.fieldNames selection).Nodup)
    (h : r.pickFields true place flat start selection = .ok picked) (hs : s ∈ selection)
    (hw : s ≠ .wildcard) :
    match flat.find? s.name with
    | none => picked.lookup s.name = start.lookup s.name
    | some field => ∃ narrowed, r.selectFrom true place field s = .ok narrowed ∧
        picked.lookup s.name = some narrowed := by
  induction selection generalizing start with
  | nil => cases hs
  | cons t rest ih =>
    rw [pickFields] at h
    obtain ⟨next, hnext, hp⟩ := bind_eq_ok.1 h
    rw [Selector.fieldNames_cons] at hn
    rcases List.mem_cons.1 hs with rfl | hs
    · rw [if_neg (mt Selector.isWildcard_iff.1 hw), List.nodup_cons] at hn
      have hkept : picked.lookup s.name = next.lookup s.name :=
        lookup_pickFields_of_not_mem hp hn.1
      rw [hkept]
      rw [pickField_eq hw] at hnext
      cases hf : flat.find? s.name with
      | none =>
        rw [hf] at hnext
        rw [← Except.ok.inj hnext]
        rfl
      | some field =>
        rw [hf] at hnext
        obtain ⟨narrowed, hnarrowed, hnext⟩ := bind_eq_ok.1 hnext
        refine ⟨narrowed, hnarrowed, ?_⟩
        rw [← pure_eq_ok.1 hnext, Keyed.lookup_put, if_pos rfl]
    · have hrest : (Selector.fieldNames rest).Nodup := by
        split at hn
        · exact hn
        · exact (List.nodup_cons.1 hn).2
      have hne : t ≠ .wildcard → s.name ≠ t.name := by
        intro ht hname
        rw [if_neg (mt Selector.isWildcard_iff.1 ht), List.nodup_cons] at hn
        exact hn.1 (hname ▸ Selector.mem_fieldNames_of_mem hs hw)
      rw [← lookup_pickField_of_ne hnext hne]
      exact ih hrest hp hs

/-- A field of the masked copy that a selector names is what the selector has picked. -/
theorem lookup_addRest_of_mem (hn : (Keyed.keys flat.fields).Nodup)
    (hp : r.pickFields true place flat [] selection = .ok picked)
    (hk : key ∈ Selector.fieldNames selection) :
    (addRest selection flat picked).lookup key = picked.lookup key := by
  rw [addRest_eq_append hn hp]
  split
  · have hrest : (unnamed selection flat.fields).lookup key = none := by
      rw [unnamed, Keyed.lookup_filter
          (p := fun key => !(Selector.fieldNames selection).contains key),
        if_neg (by simpa using hk)]
    rw [List.lookup_append, hrest, Option.or_none]
  · rfl

/-- The wildcard adds the same fields of the masked copy. -/
theorem addRest_again (hn : (Keyed.keys flat.fields).Nodup)
    (hp : r.pickFields true place flat [] selection = .ok picked)
    (hfields : again.fields = addRest selection flat picked) :
    addRest selection again picked = addRest selection flat picked := by
  have hnone : unnamed selection picked = [] := by
    refine List.filter_eq_nil_iff.2 fun e he => ?_
    by_contra hk
    have hname : e.1 ∉ Selector.fieldNames selection := by simpa using hk
    have hlookup := lookup_pickFields_of_not_mem hp hname
    exact Keyed.lookup_eq_none_iff.1 hlookup (Keyed.mem_keys_of_mem he)
  have hsame : unnamed selection (addRest selection flat picked)
      = if selection.any Selector.isWildcard then unnamed selection flat.fields else [] := by
    rw [addRest_eq_append hn hp]
    split
    · rw [unnamed, List.filter_append, ← unnamed, hnone, List.nil_append, unnamed,
        List.filter_filter]
      simp only [Bool.and_self]
    · exact hnone
  rw [addRest_eq_putAll, hfields, hsame, addRest_eq_putAll]
  split <;> rfl

/-! ## Models -/

theorem settled_of_resolveTarget {target : Target} (h : r.resolveTarget target = .ok flat) :
    Settled flat.name flat.fields := by
  cases target with
  | named name =>
    obtain ⟨model, -, h⟩ := bind_eq_ok.1 h
    exact settled_of_resolve h
  | masked model => exact settled_of_resolve h

/-- What a selector leaves of a field it leaves as it is, if the children keep masked copies. -/
theorem selectFrom_again {field out : Field}
    (hb : ∀ name children, s = .nested name children → ∀ place target model,
      r.maskTarget true children place target = .ok model →
        r.maskTarget true children place (.masked model) = .ok model)
    (h : r.selectFrom true place field s = .ok out) : r.selectFrom true place out s = .ok out := by
  cases s with
  | wildcard => rfl
  | leaf name => rfl
  | nested name children => exact Field.narrow_again (hb name children rfl _) field out h

/-- Each selector picks the same of the copy that it has picked of the flat model. -/
theorem pickField_again (hn : (Selector.fieldNames selection).Nodup)
    (hflat : (Keyed.keys flat.fields).Nodup)
    (hp : r.pickFields true place flat [] selection = .ok picked)
    (hfields : again.fields = addRest selection flat picked) (hs : s ∈ selection)
    (hb : ∀ name children, s = .nested name children → ∀ place target model,
      r.maskTarget true children place target = .ok model →
        r.maskTarget true children place (.masked model) = .ok model) (before : Fields) :
    Keeps (r.pickField true place flat before s) (r.pickField true place again before s) := by
  intro after hafter
  by_cases hw : s = .wildcard
  · rwa [hw, pickField_wildcard] at hafter ⊢
  have hlookup := lookup_pickFields hn hp hs hw
  have hcopy : again.find? s.name = picked.lookup s.name := by
    rw [FlatModel.find?, hfields]
    exact lookup_addRest_of_mem hflat hp (Selector.mem_fieldNames_of_mem hs hw)
  rw [pickField_eq hw] at hafter ⊢
  cases hf : flat.find? s.name with
  | none =>
    rw [hf] at hlookup hafter
    rw [hcopy, hlookup]
    exact hafter
  | some field =>
    rw [hf] at hlookup hafter
    obtain ⟨narrowed, hnarrowed, hlookup⟩ := hlookup
    obtain ⟨narrowed', hnarrowed', hafter⟩ := bind_eq_ok.1 hafter
    obtain rfl := Except.ok.inj (hnarrowed.symm.trans hnarrowed')
    rw [hcopy, hlookup]
    exact bind_eq_ok.2 ⟨narrowed, selectFrom_again hb hnarrowed, hafter⟩

/-- **What a selection makes of a flat model it makes again** of what that flattens to. -/
theorem maskFlat_again (selection : List Selector) (hn : (Selector.fieldNames selection).Nodup)
    (he : Selector.NamesOnceEach selection) {place : Pointer} {flat : FlatModel} {masked : Model}
    (hs : Settled flat.name flat.fields)
    (h : r.maskFlat true selection place flat = .ok masked) :
    r.maskTarget true selection place (.masked masked) = .ok masked := by
  have hsettled := settled_maskFlat hs h
  obtain ⟨picked, hp, rfl⟩ := maskFlat_eq_ok.1 h
  rw [maskTarget, resolveTarget, resolve_of_settled rfl hsettled]
  refine maskFlat_eq_ok.2 ⟨picked, ?_, ?_⟩
  · have hfold := hp
    rw [pickFields_eq_foldlM] at hfold ⊢
    refine keeps_foldlM [] (fun before s hmem => ?_) picked hfold
    refine pickField_again hn hs.nodup hp rfl hmem (fun name children hnested => ?_) before
    -- the first pass may have come to the target by name, the second one has the masked copy
    intro place target model hmodel
    obtain ⟨below, hbelow, hmodel⟩ := bind_eq_ok.1 hmodel
    have := Selector.sizeOf_children_lt (hnested ▸ hmem)
    obtain ⟨hn', he'⟩ := Selector.namesOnceEach_iff.1 he _ (hnested ▸ hmem)
    have hsettled := settled_of_resolveTarget (mapError_eq_ok.1 hbelow)
    exact maskFlat_again children hn' he' hsettled hmodel
  · show maskedCopy flat (addRest selection _ picked) = _
    rw [addRest_again hs.nodup hp rfl]
termination_by sizeOf selection

/--
**Masking a model twice is the same as once**: what a mask makes of a model is made of it again,
with the same masked copies of nested models, masks of opaque and polymorphic fields and defaults of
discriminators, in the same order.
-/
theorem maskModel_again {text : String} {mask : Mask} (hmask : Mask.parse text = .ok mask)
    {model : Model} (h : r.maskModel mask true model = .ok masked) :
    r.maskModel mask true masked = .ok masked := by
  obtain ⟨flat, hflat, hmasked⟩ := bind_eq_ok.1 h
  obtain ⟨hn, he⟩ := Mask.namesOnce_of_parse hmask
  exact maskFlat_again mask.selectors hn he (settled_of_resolve (mapError_eq_ok.1 hflat)) hmasked

/-- The keeper of a cat goes first, as a copy in which the pets keep a mask for later. -/
theorem maskModel_again_menagerie :
    let text := "*,keeper\x7bpets\x7bx\x7d,name\x7d,color"
    let mask : Mask :=
      ⟨[.wildcard, .nested "keeper" [.nested "pets" [.leaf "x"], .leaf "name"], .leaf "color"]⟩
    ∃ r model masked, Registry.load menagerie = .ok r ∧ r.find? "Cat" = some model ∧
      Mask.parse text = .ok mask ∧ r.maskModel mask true model = .ok masked ∧
      Keyed.keys masked.fields = ["keeper", "kind", "toys"] ∧
      r.maskModel mask true masked = .ok masked := by
  intro text mask
  have hmask : Mask.parse text = .ok mask := by decide +kernel
  have h : ((Registry.load menagerie).toOption.any fun r => (r.find? "Cat").any fun model =>
      (r.maskModel mask true model).toOption.any fun masked =>
        Keyed.keys masked.fields = ["keeper", "kind", "toys"]) = true := by
    cbv
  obtain ⟨r, hl, h⟩ := exists_of_any_toOption h
  obtain ⟨model, hm, h⟩ := (Option.any_eq_true _ _).1 h
  obtain ⟨masked, hmasked, h⟩ := exists_of_any_toOption h
  exact ⟨r, model, masked, hl, hm, hmask, hmasked, of_decide_eq_true h,
    maskModel_again hmask hmasked⟩

end Registry

end FieldMask
