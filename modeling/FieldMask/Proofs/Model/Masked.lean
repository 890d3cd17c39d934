import FieldMask.Model.Masked
import FieldMask.Proofs.Mask.Siblings
import FieldMask.Proofs.Model.Flat

/-!
# What masks make of models

A selector that names a field of a flat model puts what it leaves of that field under its name
(`pickField_eq`): a nested selector narrows the field, another one takes it whole. Narrowing a field
changes its shape and its mask alone (`narrow_eq_ok`), so the fields that a mask picks from settled
ones are settled (`settled_maskFlat`), and the masked copy of a flat model flattens to just the
fields that were picked (`resolve_maskFlat`).
-/

namespace FieldMask

namespace Field

variable {selection : List Selector} {place : Pointer} {below : Target → Except MaskError Model}
  {field out : Field}

/-! ## Narrowing -/

theorem narrow_scalar {kind : Kind} (h : field.shape = .scalar kind) :
    field.narrow selection place below =
      if kind.isOpaque then .ok { field with mask := some ⟨selection⟩ }
      else .error (.inconsistent ⟨place⟩) := by
  cases field
  cases h
  rfl

theorem narrow_list {items : Field} {least most : Option UInt64} {unique : Bool}
    (h : field.shape = .list items least most unique) :
    field.narrow selection place below = do
      return { field with
        shape := .list (← items.narrow selection place below) least most unique } := by
  cases field
  cases h
  rfl

theorem narrow_nested {target : Target} {asList : Bool} (h : field.shape = .nested target asList) :
    field.narrow selection place below = do
      return { field with shape := .nested (.masked (← below target)) asList } := by
  cases field
  cases h
  rfl

theorem narrow_polymorph {mapping : NameMap String} (h : field.shape = .polymorph mapping) :
    field.narrow selection place below = .ok { field with mask := some ⟨selection⟩ } := by
  cases field
  cases h
  rfl

/-- Narrowing a field changes its shape and its mask alone. -/
theorem narrow_eq_ok (h : field.narrow selection place below = .ok out) :
    ∃ shape mask, out = { field with shape, mask } := by
  cases hs : field.shape with
  | scalar kind =>
    rw [narrow_scalar hs] at h
    split at h
    · obtain rfl := Except.ok.inj h
      exact ⟨_, _, rfl⟩
    · cases h
  | list items least most unique =>
    rw [narrow_list hs, bind_eq_ok] at h
    obtain ⟨items', -, h⟩ := h
    exact ⟨_, _, (pure_eq_ok.1 h).symm⟩
  | nested target asList =>
    rw [narrow_nested hs, bind_eq_ok] at h
    obtain ⟨model, -, h⟩ := h
    exact ⟨_, _, (pure_eq_ok.1 h).symm⟩
  | polymorph mapping =>
    rw [narrow_polymorph hs] at h
    exact ⟨_, _, (Except.ok.inj h).symm⟩

end Field

namespace Registry

variable {r : Registry} {skipMissing : Bool} {place : Pointer} {flat : FlatModel}
  {selection : List Selector} {picked out : Fields} {model : Model}

/-- The masked copy of the model that a nested field refers to. -/
def maskTarget (r : Registry) (skipMissing : Bool) (selection : List Selector) (place : Pointer)
    (target : Target) : Except MaskError Model := do
  r.maskFlat skipMissing selection place (← liftModel (r.resolveTarget target))

/-- What a selector leaves of the field that it names. -/
def selectFrom (r : Registry) (skipMissing : Bool) (place : Pointer) (field : Field) :
    Selector → Except MaskError Field
  | .nested name children =>
    field.narrow children (place.child name) (r.maskTarget skipMissing children (place.child name))
  | _ => .ok field

/-! ## Picking -/

theorem pickField_eq {s : Selector} (hs : s ≠ .wildcard) :
    r.pickField skipMissing place flat picked s =
      match flat.find? s.name with
      | none => .ok (if skipMissing then picked else Keyed.put s.name .raw picked)
      | some field => do
        return Keyed.put s.name (← r.selectFrom skipMissing place field s) picked := by
  cases s with
  | wildcard => exact absurd rfl hs
  | leaf name =>
    rw [pickField, Selector.name]
    cases flat.find? name <;> rfl
  | nested name children =>
    rw [pickField, Selector.name]
    cases flat.find? name with
    | none => rfl
    | some field => rfl

theorem pickField_wildcard : r.pickField skipMissing place flat picked .wildcard = .ok picked := by
  rw [pickField]

theorem pickFields_eq_foldlM :
    r.pickFields skipMissing place flat picked selection =
      selection.foldlM (r.pickField skipMissing place flat) picked := by
  induction selection generalizing picked with
  | nil => rw [pickFields]; rfl
  | cons s rest ih =>
    rw [pickFields, List.foldlM_cons]
    exact bind_congr fun picked => ih

theorem maskFlat_eq_ok :
    r.maskFlat skipMissing selection place flat = .ok model ↔
      ∃ picked, r.pickFields skipMissing place flat [] selection = .ok picked ∧
        maskedCopy flat (addRest selection flat picked) = model := by
  simp [maskFlat]

theorem maskTarget_named_eq_ok {name : String} :
    r.maskTarget skipMissing selection place (.named name) = .ok model ↔
      ∃ m flat, r.find? name = some m ∧ r.resolve m = .ok flat ∧
        r.maskFlat skipMissing selection place flat = .ok model := by
  simp only [maskTarget, liftModel, resolveTarget, resolveName,
    bind_eq_ok, mapError_eq_ok, lookup_eq_ok]
  constructor
  · rintro ⟨flat, ⟨m, hm, hflat⟩, hmodel⟩
    exact ⟨m, flat, hm, hflat, hmodel⟩
  · rintro ⟨m, flat, hm, hflat, hmodel⟩
    exact ⟨flat, ⟨m, hm, hflat⟩, hmodel⟩

/-! ## What is picked -/

/--
A named field is one of the flat model, perhaps with another shape and mask, or it stands in for one
that the flat model lacks.
-/
def Stems (flat : FlatModel) (e : String × Field) : Prop :=
  e.2 = .raw ∨ ∃ field shape mask, (e.1, field) ∈ flat.fields ∧ e.2 = { field with shape, mask }

theorem stems_of_mem {e : String × Field} (he : e ∈ flat.fields) : Stems flat e := by
  refine .inr ⟨e.2, e.2.shape, e.2.mask, he, ?_⟩
  cases e.2
  rfl

theorem stems_selectFrom {name : String} {field narrowed : Field} {s : Selector}
    (hf : (name, field) ∈ flat.fields)
    (h : r.selectFrom skipMissing place field s = .ok narrowed) : Stems flat (name, narrowed) := by
  cases s with
  | wildcard =>
    obtain rfl := Except.ok.inj h
    exact stems_of_mem hf
  | leaf _ =>
    obtain rfl := Except.ok.inj h
    exact stems_of_mem hf
  | nested _ children =>
    obtain ⟨shape, mask, hn⟩ := Field.narrow_eq_ok h
    exact .inr ⟨field, shape, mask, hf, hn⟩

/-- The fields have distinct names, and each of them stems from the flat model. -/
def Picked (flat : FlatModel) (picked : Fields) : Prop :=
  (Keyed.keys picked).Nodup ∧ ∀ e ∈ picked, Stems flat e

theorem picked_put {name : String} {field : Field} (h : Picked flat picked)
    (hf : Stems flat (name, field)) : Picked flat (Keyed.put name field picked) := by
  refine ⟨Keyed.nodup_keys_put h.1, fun e he => ?_⟩
  rcases Keyed.mem_put he with rfl | he
  · exact hf
  · exact h.2 e he

theorem picked_pickField {s : Selector} (h : Picked flat picked)
    (hp : r.pickField skipMissing place flat picked s = .ok out) : Picked flat out := by
  by_cases hs : s = .wildcard
  · subst hs
    rw [pickField_wildcard] at hp
    obtain rfl := Except.ok.inj hp
    exact h
  · rw [pickField_eq hs] at hp
    split at hp
    · obtain rfl := Except.ok.inj hp
      split
      · exact h
      · exact picked_put h (.inl rfl)
    · rename_i field hf
      obtain ⟨narrowed, hn, hp⟩ := bind_eq_ok.1 hp
      obtain rfl := pure_eq_ok.1 hp
      exact picked_put h (stems_selectFrom (Keyed.mem_of_lookup hf) hn)

theorem mem_addRest {e : String × Field} (h : e ∈ addRest selection flat picked) :
    e ∈ picked ∨ e ∈ flat.fields := by
  unfold addRest at h
  split at h
  · exact (Keyed.mem_putAll h).imp_right List.mem_of_mem_filter
  · exact .inl h

theorem picked_addRest (h : Picked flat picked) : Picked flat (addRest selection flat picked) := by
  refine ⟨?_, fun e he => ?_⟩
  · unfold addRest
    split
    · exact Keyed.nodup_keys_putAll h.1
    · exact h.1
  · rcases mem_addRest he with he | he
    · exact h.2 e he
    · exact stems_of_mem he

theorem picked_pickFields (h : r.pickFields skipMissing place flat [] selection = .ok picked) :
    Picked flat picked := by
  rw [pickFields_eq_foldlM] at h
  refine foldlM_induct (P := Picked flat) (fun picked s _ picked' h hp => ?_) ?_ h
  · exact picked_pickField h hp
  · exact ⟨List.nodup_nil, List.forall_mem_nil _⟩

/-- The masked copy of a flat model has fields that stem from it. -/
theorem picked_maskFlat (h : r.maskFlat skipMissing selection place flat = .ok model) :
    Picked flat model.fields := by
  obtain ⟨picked, hp, rfl⟩ := maskFlat_eq_ok.1 h
  exact picked_addRest (picked_pickFields hp)

theorem settled_of_picked (hs : Settled flat.name flat.fields) (h : Picked flat picked) :
    Settled flat.name picked := by
  have hdisc : ∀ e ∈ picked, e.2.discriminator = true →
      e.1 ∈ discriminators flat.fields ∧ e.2.default = some (.str flat.name) := by
    intro e he hd
    rcases h.2 e he with hraw | ⟨field, shape, mask, hf, hn⟩
    · rw [hraw] at hd
      cases hd
    · rw [hn] at hd ⊢
      exact ⟨mem_discriminators.2 ⟨field, hf, hd⟩, hs.default _ hf hd⟩
  refine ⟨h.1, ?_, fun e he hd => (hdisc e he hd).2⟩
  refine Nat.le_trans (List.Nodup.length_le_of_subset ?_ fun key hk => ?_) hs.discriminators
  · exact List.Nodup.sublist (List.Sublist.map _ List.filter_sublist) h.1
  · obtain ⟨field, hm, hd⟩ := mem_discriminators.1 hk
    exact (hdisc _ hm hd).1

/-- The fields of the masked copy of a flat model are settled. -/
theorem settled_maskFlat (hs : Settled flat.name flat.fields)
    (h : r.maskFlat skipMissing selection place flat = .ok model) :
    Settled model.name model.fields := by
  have hp := picked_maskFlat h
  obtain ⟨picked, -, rfl⟩ := maskFlat_eq_ok.1 h
  exact settled_of_picked hs hp

/-- **A masked copy flattens to the fields that were picked**, and to nothing else. -/
theorem resolve_maskFlat (hs : Settled flat.name flat.fields)
    (h : r.maskFlat skipMissing selection place flat = .ok model) :
    ∃ masked, r.resolve model = .ok masked ∧ masked.name = flat.name ∧
      masked.fields = model.fields ∧ masked.mask = none := by
  have hsettled := settled_maskFlat hs h
  obtain ⟨picked, -, rfl⟩ := maskFlat_eq_ok.1 h
  exact ⟨_, resolve_of_settled rfl hsettled, rfl, rfl, rfl⟩

end Registry

end FieldMask
