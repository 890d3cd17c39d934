import FieldMask.Model.Ancestry
import FieldMask.Proofs.Model.Masked

/-!
# Sound fields and models

A field is sound in a registry if everything that it refers to, through list items and masked copies
too, is there and flattens. A sound model flattens to sound fields, and a registry is sound if each
of its models is. Masks keep that: narrowing a sound field, or masking a sound model, is refused for
a selection below a scalar only and gives a sound one otherwise (`maskFlat_sound`).
-/

namespace FieldMask

/-- The mask selects below a scalar. -/
def MaskError.IsInconsistent : MaskError → Prop
  | .inconsistent _ => True
  | _ => False

/-- Masking ends in something with the property, unless the mask selects below a scalar. -/
abbrev MasksTo {α : Type} (P : α → Prop) (x : Except MaskError α) : Prop :=
  Ends P MaskError.IsInconsistent x

/--
Everything that the field refers to is registered, and the masked copies in it flatten to sound
fields.
-/
inductive Field.Sound (r : Registry) : Field → Prop
  | scalar {field : Field} {kind : Kind} (h : field.shape = .scalar kind) : Field.Sound r field
  | list {field items : Field} {least most : Option UInt64} {unique : Bool}
      (h : field.shape = .list items least most unique) (hi : Field.Sound r items) :
      Field.Sound r field
  | named {field : Field} {name : String} {model : Model} {asList : Bool}
      (h : field.shape = .nested (.named name) asList) (hm : r.find? name = some model) :
      Field.Sound r field
  | masked {field : Field} {model : Model} {flat : FlatModel} {asList : Bool}
      (h : field.shape = .nested (.masked model) asList) (hm : r.resolve model = .ok flat)
      (hf : ∀ e ∈ flat.fields, Field.Sound r e.2) : Field.Sound r field
  | polymorph {field : Field} {mapping : NameMap String} {ancestor : Model}
      (h : field.shape = .polymorph mapping) (ha : r.commonAncestor mapping.values = .ok ancestor)
      (hm : ∀ name ∈ mapping.values, ∃ model, r.find? name = some model) : Field.Sound r field

/-- The model flattens to sound fields. -/
def Model.Sound (r : Registry) (model : Model) : Prop :=
  ∃ flat, r.resolve model = .ok flat ∧ ∀ e ∈ flat.fields, e.2.Sound r

/-- The target is registered, or is a sound masked copy. -/
def Target.Sound (r : Registry) : Target → Prop
  | .named name => ∃ model, r.find? name = some model
  | .masked model => model.Sound r

/-- Every registered model is sound. -/
def Registry.Sound (r : Registry) : Prop :=
  ∀ name model, r.find? name = some model → model.Sound r

namespace Field

variable {r : Registry} {field : Field}

/-! ## What soundness says of a shape -/

theorem Sound.items (hf : field.Sound r) {items : Field} {least most : Option UInt64}
    {unique : Bool} (h : field.shape = .list items least most unique) : items.Sound r := by
  cases hf with
  | list h' hi =>
    obtain ⟨rfl, -⟩ := Shape.list.inj (h.symm.trans h')
    exact hi
  | scalar h' => cases h.symm.trans h'
  | named h' => cases h.symm.trans h'
  | masked h' => cases h.symm.trans h'
  | polymorph h' => cases h.symm.trans h'

theorem Sound.target (hf : field.Sound r) {target : Target} {asList : Bool}
    (h : field.shape = .nested target asList) : target.Sound r := by
  cases hf with
  | named h' hm =>
    obtain ⟨rfl, -⟩ := Shape.nested.inj (h.symm.trans h')
    exact ⟨_, hm⟩
  | masked h' hm hf =>
    obtain ⟨rfl, -⟩ := Shape.nested.inj (h.symm.trans h')
    exact ⟨_, hm, hf⟩
  | scalar h' => cases h.symm.trans h'
  | list h' => cases h.symm.trans h'
  | polymorph h' => cases h.symm.trans h'

theorem Sound.mapping (hf : field.Sound r) {mapping : NameMap String}
    (h : field.shape = .polymorph mapping) :
    (∃ ancestor, r.commonAncestor mapping.values = .ok ancestor) ∧
      ∀ name ∈ mapping.values, ∃ model, r.find? name = some model := by
  cases hf with
  | polymorph h' ha hm =>
    obtain rfl := Shape.polymorph.inj (h.symm.trans h')
    exact ⟨⟨_, ha⟩, hm⟩
  | scalar h' => cases h.symm.trans h'
  | list h' => cases h.symm.trans h'
  | named h' => cases h.symm.trans h'
  | masked h' => cases h.symm.trans h'

/-- A field that is nested in a sound target is sound. -/
theorem sound_of_target {target : Target} {asList : Bool} (ht : target.Sound r)
    (h : field.shape = .nested target asList) : field.Sound r := by
  cases target with
  | named name =>
    obtain ⟨model, hm⟩ := ht
    exact .named h hm
  | masked model =>
    obtain ⟨flat, hm, hf⟩ := ht
    exact .masked h hm hf

/-- Soundness is a matter of the shape alone. -/
theorem Sound.of_shape_eq (hf : field.Sound r) {other : Field} (h : other.shape = field.shape) :
    other.Sound r := by
  cases hs : field.shape with
  | scalar kind => exact .scalar (h.trans hs)
  | list items least most unique => exact .list (h.trans hs) (hf.items hs)
  | nested target asList => exact sound_of_target (hf.target hs) (h.trans hs)
  | polymorph mapping =>
    obtain ⟨⟨ancestor, ha⟩, hm⟩ := hf.mapping hs
    exact .polymorph (h.trans hs) ha hm

/-! ## Masks -/

/-- Narrowing keeps a field sound if sound targets are masked to sound models. -/
theorem Sound.narrow {selection : List Selector} {place : Pointer}
    {below : Target → Except MaskError Model} (hf : field.Sound r)
    (hb : ∀ target, target.Sound r → MasksTo (Model.Sound r) (below target)) :
    MasksTo (Field.Sound r) (field.narrow selection place below) := by
  have nested {field : Field} {target : Target} {asList : Bool}
      (h : field.shape = .nested target asList) (ht : target.Sound r) :
      MasksTo (Field.Sound r) (field.narrow selection place below) := by
    rw [narrow_nested h]
    refine (hb target ht).bind fun model hm => ?_
    have ht : (Target.masked model).Sound r := hm
    exact ends_pure (sound_of_target ht rfl)
  induction hf with
  | @scalar field kind h =>
    rw [narrow_scalar h]
    split
    · exact Field.Sound.scalar h
    · exact trivial
  | list h hi ih =>
    rw [narrow_list h]
    exact ih.bind fun items hi => ends_pure (.list rfl hi)
  | named h hm => exact nested h ⟨_, hm⟩
  | masked h hm hf => exact nested h ⟨_, hm, hf⟩
  | polymorph h ha hm =>
    rw [narrow_polymorph h]
    exact Field.Sound.polymorph h ha hm

end Field

namespace Registry

variable {r : Registry} {skipMissing : Bool}

theorem mem_of_commonAncestor {names : List String} {ancestor : Model}
    (h : r.commonAncestor names = .ok ancestor) : ∃ name, r.find? name = some ancestor := by
  obtain ⟨sets, -, h⟩ := bind_eq_ok.1 h
  dsimp only at h
  split at h
  · exact ⟨_, lookup_eq_ok.1 h⟩
  · cases h

/-- The target of a nested field flattens to sound fields. -/
theorem resolveTarget_sound (hr : r.Sound) {target : Target} (ht : target.Sound r) :
    ∃ flat, r.resolveTarget target = .ok flat ∧ Settled flat.name flat.fields ∧
      ∀ e ∈ flat.fields, e.2.Sound r := by
  cases target with
  | named name =>
    obtain ⟨model, hm⟩ := ht
    obtain ⟨flat, hflat, hf⟩ := hr name model hm
    refine ⟨flat, ?_, settled_of_resolve hflat, hf⟩
    rw [resolveTarget, resolveName, lookup_eq_ok.2 hm]
    exact hflat
  | masked model =>
    obtain ⟨flat, hflat, hf⟩ := ht
    exact ⟨flat, hflat, settled_of_resolve hflat, hf⟩

/-- What is selected below the selector masks sound targets to sound models. -/
def SoundBelow (r : Registry) (skipMissing : Bool) (s : Selector) : Prop :=
  ∀ name children, s = .nested name children → ∀ place target, target.Sound r →
    MasksTo (Model.Sound r) (r.maskTarget skipMissing children place target)

theorem selectFrom_sound {place : Pointer} {field : Field} {s : Selector} (hf : field.Sound r)
    (hb : SoundBelow r skipMissing s) :
    MasksTo (Field.Sound r) (r.selectFrom skipMissing place field s) := by
  cases s with
  | wildcard => exact hf
  | leaf name => exact hf
  | nested name children => exact hf.narrow (hb name children rfl _)

theorem pickField_sound {place : Pointer} {flat : FlatModel} {picked : Fields} {s : Selector}
    (hflat : ∀ e ∈ flat.fields, e.2.Sound r) (hp : ∀ e ∈ picked, e.2.Sound r)
    (hb : SoundBelow r skipMissing s) :
    MasksTo (fun picked => ∀ e ∈ picked, e.2.Sound r)
      (r.pickField skipMissing place flat picked s) := by
  have put {name : String} {field : Field} (hf : field.Sound r) :
      ∀ e ∈ Keyed.put name field picked, e.2.Sound r := by
    intro e he
    rcases Keyed.mem_put he with rfl | he
    · exact hf
    · exact hp e he
  by_cases hs : s = .wildcard
  · subst hs
    rw [pickField_wildcard]
    exact hp
  · rw [pickField_eq hs]
    split
    · cases skipMissing
      · exact put (Field.Sound.scalar rfl)
      · exact hp
    · rename_i field hfield
      have hf : field.Sound r := hflat _ (Keyed.mem_of_lookup hfield)
      exact (selectFrom_sound hf hb).bind fun narrowed hn => ends_pure (put hn)

/--
**Masking a flat model of sound fields** gives a sound model, unless the mask selects below a
scalar.
-/
theorem maskFlat_sound (hr : r.Sound) {flat : FlatModel} (hs : Settled flat.name flat.fields)
    (hf : ∀ e ∈ flat.fields, e.2.Sound r) (selection : List Selector) (place : Pointer) :
    MasksTo (Model.Sound r) (r.maskFlat skipMissing selection place flat) := by
  have hpick : MasksTo (fun picked => ∀ e ∈ picked, e.2.Sound r)
      (r.pickFields skipMissing place flat [] selection) := by
    rw [pickFields_eq_foldlM]
    refine ends_foldlM (fun picked s hmem hp => pickField_sound hf hp ?_) (List.forall_mem_nil _)
    rintro name children rfl place target ht
    obtain ⟨below, hbelow, hbs, hbf⟩ := resolveTarget_sound hr ht
    have := Selector.sizeOf_children_lt hmem
    rw [maskTarget, hbelow]
    exact maskFlat_sound hr hbs hbf children place
  cases h : r.pickFields skipMissing place flat [] selection with
  | error e =>
    rw [maskFlat, h]
    exact hpick.of_error h
  | ok picked =>
    have hm : r.maskFlat skipMissing selection place flat
        = .ok (maskedCopy flat (addRest selection flat picked)) := maskFlat_eq_ok.2 ⟨picked, h, rfl⟩
    obtain ⟨masked, hres, -, hfields, -⟩ := resolve_maskFlat hs hm
    refine ends_of_eq_ok hm ⟨masked, hres, ?_⟩
    rw [hfields]
    intro e he
    rcases mem_addRest he with he | he
    · exact hpick.of_ok h e he
    · exact hf e he
termination_by sizeOf selection

/-- Masking a sound model gives a sound model, unless the mask selects below a scalar. -/
theorem maskModel_sound (hr : r.Sound) {model : Model} (hm : model.Sound r) (mask : Mask) :
    MasksTo (Model.Sound r) (r.maskModel mask skipMissing model) := by
  obtain ⟨flat, hflat, hf⟩ := hm
  rw [maskModel, hflat]
  exact maskFlat_sound hr (settled_of_resolve hflat) hf mask.selectors .root

end Registry

end FieldMask
