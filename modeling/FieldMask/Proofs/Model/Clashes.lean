import FieldMask.Proofs.Declaration.Sound
import FieldMask.Proofs.Faults
import FieldMask.Proofs.Pointer.Decoding
import Mathlib

/-!
# Clashes of masks with models

A mask clashes with a model where it selects below a scalar field, unless what is in the field is
known only when there is a value. `FlatModel.Clash` and `Field.Clash` say so of a chain of nested
selectors, through list items and into the models that nested fields refer to. The trail of a chain
tells which of the siblings it follows at each level, and the names are those of its fields.

Masking a model of a loaded registry is refused just if there is a clash, and the place in the error
has the names of the first one (`maskModel_refused_iff`). A chain may come back to a model that it
has been in, but it gets no longer than the mask is deep: the proof goes by the size of the mask.
-/

namespace FieldMask

mutual

/--
What is selected of the field leads below a scalar. There is no such chain in an opaque or
polymorphic field.
-/
inductive Field.Clash (r : Registry) : Field → List Selector → List Nat → List String → Prop
  | scalar {field : Field} {kind : Kind} {selection : List Selector}
      (h : field.shape = .scalar kind) (ho : kind.isOpaque = false) :
      Field.Clash r field selection [] []
  | list {field items : Field} {least most : Option UInt64} {unique : Bool}
      {selection : List Selector} {trail : List Nat} {names : List String}
      (h : field.shape = .list items least most unique)
      (hi : Field.Clash r items selection trail names) : Field.Clash r field selection trail names
  | nested {field : Field} {target : Target} {asList : Bool} {flat : FlatModel}
      {selection : List Selector} {trail : List Nat} {names : List String}
      (h : field.shape = .nested target asList) (ht : r.resolveTarget target = .ok flat)
      (hf : FlatModel.Clash r flat selection trail names) :
      Field.Clash r field selection trail names

/-- A nested selector names a field of the flat model, and its children lead below a scalar. -/
inductive FlatModel.Clash (r : Registry) : FlatModel → List Selector → List Nat → List String → Prop
  | field {flat : FlatModel} {selection children : List Selector} {i : Nat} {name : String}
      {field : Field} {trail : List Nat} {names : List String}
      (hs : selection[i]? = some (.nested name children)) (hf : flat.find? name = some field)
      (h : Field.Clash r field children trail names) :
      FlatModel.Clash r flat selection (i :: trail) (name :: names)

end

/-- Clashes from a place on, as the errors that they lead to. -/
abbrev clashesAt (place : Pointer) (C : List Nat → List String → Prop) : Faults MaskError :=
  faultsAt (fun place => .inconsistent ⟨place⟩) place C

variable {r : Registry} {skipMissing : Bool} {place : Pointer} {field : Field} {flat : FlatModel}
  {selection : List Selector} {trail : List Nat} {names : List String} {e : MaskError}

/-! ## Fields -/

namespace Field

theorem clash_scalar_iff {kind : Kind} (h : field.shape = .scalar kind) :
    field.Clash r selection trail names ↔ kind.isOpaque = false ∧ trail = [] ∧ names = [] := by
  constructor
  · intro hclash
    cases hclash with
    | scalar h' ho =>
      obtain rfl := Shape.scalar.inj (h.symm.trans h')
      exact ⟨ho, rfl, rfl⟩
    | list h' => cases h.symm.trans h'
    | nested h' => cases h.symm.trans h'
  · rintro ⟨ho, rfl, rfl⟩
    exact .scalar h ho

theorem clash_list_iff {items : Field} {least most : Option UInt64} {unique : Bool}
    (h : field.shape = .list items least most unique) :
    field.Clash r selection trail names ↔ items.Clash r selection trail names := by
  refine ⟨fun hclash => ?_, .list h⟩
  cases hclash with
  | scalar h' => cases h.symm.trans h'
  | list h' hi =>
    obtain ⟨rfl, -⟩ := Shape.list.inj (h.symm.trans h')
    exact hi
  | nested h' => cases h.symm.trans h'

theorem clash_nested_iff {target : Target} {asList : Bool} (h : field.shape = .nested target asList)
    (ht : r.resolveTarget target = .ok flat) :
    field.Clash r selection trail names ↔ flat.Clash r selection trail names := by
  refine ⟨fun hclash => ?_, .nested h ht⟩
  cases hclash with
  | scalar h' => cases h.symm.trans h'
  | list h' => cases h.symm.trans h'
  | nested h' ht' hf =>
    obtain ⟨rfl, -⟩ := Shape.nested.inj (h.symm.trans h')
    obtain rfl := Except.ok.inj (ht.symm.trans ht')
    exact hf

theorem not_clash_polymorph {mapping : NameMap String} (h : field.shape = .polymorph mapping) :
    ¬field.Clash r selection trail names := by
  intro hclash
  cases hclash with
  | scalar h' => cases h.symm.trans h'
  | list h' => cases h.symm.trans h'
  | nested h' => cases h.symm.trans h'

/-- Narrowing reports the first clash with a field if it is reported for sound targets. -/
theorem Sound.reports_narrow {below : Target → Except MaskError Model} (hf : field.Sound r)
    (hb : ∀ target, target.Sound r → ∃ flat, r.resolveTarget target = .ok flat ∧
      Reports (clashesAt place (flat.Clash r selection)) (below target)) :
    Reports (clashesAt place (field.Clash r selection)) (field.narrow selection place below) := by
  have nested {field : Field} {target : Target} {asList : Bool}
      (h : field.shape = .nested target asList) (ht : target.Sound r) :
      Reports (clashesAt place (field.Clash r selection)) (field.narrow selection place below) := by
    obtain ⟨flat, hflat, hreports⟩ := hb target ht
    rw [narrow_nested h]
    refine Reports.bind (hreports.congr fun trail e => ?_) fun model => ⟨_, rfl⟩
    exact faultsAt_congr fun trail names => (clash_nested_iff h hflat).symm
  induction hf with
  | @scalar field kind h =>
    rw [narrow_scalar h]
    split
    · rename_i ho
      rintro trail e ⟨names, hclash, -⟩
      cases ho.symm.trans ((clash_scalar_iff h).1 hclash).1
    · rename_i ho
      exact reports_error ⟨[], .scalar h (Bool.eq_false_iff.2 ho), by simp⟩
  | list h hi ih =>
    rw [narrow_list h]
    refine Reports.bind (ih.congr fun trail e => ?_) fun items => ⟨_, rfl⟩
    exact faultsAt_congr fun trail names => (clash_list_iff h).symm
  | named h hm => exact nested h ⟨_, hm⟩
  | masked h hm hf => exact nested h ⟨_, hm, hf⟩
  | polymorph h =>
    rw [narrow_polymorph h]
    rintro trail e ⟨names, hclash, -⟩
    exact not_clash_polymorph h hclash

end Field

/-! ## Models -/

namespace Registry

/-- The clashes of a selector with the field that it names. -/
def fieldClashes (r : Registry) (flat : FlatModel) (place : Pointer) (s : Selector) :
    Faults MaskError :=
  faultsBelow flat.find?
    (fun name children field => clashesAt (place.child name) (field.Clash r children)) s

theorem clashesAt_flat_iff :
    clashesAt place (flat.Clash r selection) trail e ↔
      faultsIn (fun _ => r.fieldClashes flat place) selection trail e := by
  constructor
  · rintro ⟨_, hclash, rfl⟩
    cases hclash with
    | field hs hf h => exact ⟨_, hs, _, _, _, rfl, hf, _, h, by simp [Pointer.child]⟩
  · intro h
    cases trail with
    | nil => exact h.elim
    | cons i trail =>
      obtain ⟨_, hs, name, children, field, rfl, hf, names, hclash, rfl⟩ := h
      exact ⟨_, .field hs hf hclash, by simp [Pointer.child]⟩

/-- The first clash of a selection is reported for all sound targets. -/
def ReportsBelow (r : Registry) (skipMissing : Bool) (selection : List Selector) : Prop :=
  ∀ place target, target.Sound r → ∃ flat, r.resolveTarget target = .ok flat ∧
    Reports (clashesAt place (flat.Clash r selection))
      (r.maskTarget skipMissing selection place target)

theorem reports_selectFrom {s : Selector} (hf : flat.find? s.name = some field)
    (hfield : field.Sound r)
    (hb : ∀ name children, s = .nested name children → r.ReportsBelow skipMissing children) :
    Reports (r.fieldClashes flat place s) (r.selectFrom skipMissing place field s) := by
  cases s with
  | wildcard => exact reports_not_nested nofun
  | leaf name => exact reports_not_nested nofun
  | nested name children =>
    have hf : flat.find? name = some field := hf
    refine (hfield.reports_narrow (hb name children rfl (place.child name))).congr fun trail e => ?_
    rw [fieldClashes, faultsBelow_nested_iff hf]

theorem reports_pickField {s : Selector} {picked : Fields}
    (hflat : ∀ e ∈ flat.fields, e.2.Sound r)
    (hb : ∀ name children, s = .nested name children → r.ReportsBelow skipMissing children) :
    Reports (r.fieldClashes flat place s) (r.pickField skipMissing place flat picked s) := by
  by_cases hw : s = .wildcard
  · rw [hw, pickField_wildcard]
    exact reports_not_nested nofun
  · rw [pickField_eq hw]
    cases hf : flat.find? s.name with
    | none => exact reports_of_lacking hf
    | some field =>
      have hfield : field.Sound r := hflat _ (Keyed.mem_of_lookup hf)
      exact (reports_selectFrom hf hfield hb).bind fun narrowed => ⟨_, rfl⟩

/-- **Masking a flat model reports the first clash** with one of its fields. -/
theorem reports_maskFlat (hr : r.Sound) {flat : FlatModel} (hf : ∀ e ∈ flat.fields, e.2.Sound r)
    (selection : List Selector) (place : Pointer) :
    Reports (clashesAt place (flat.Clash r selection))
      (r.maskFlat skipMissing selection place flat) := by
  rw [maskFlat, pickFields_eq_foldlM]
  refine Reports.bind (Reports.congr (reports_foldlM fun picked s hs => ?_)
    fun trail e => clashesAt_flat_iff.symm) fun picked => ⟨_, rfl⟩
  refine reports_pickField hf fun name children hnested place target ht => ?_
  -- The target may be a model that the chain has been in, but the children are a smaller mask.
  obtain ⟨below, hbelow, -, hsound⟩ := resolveTarget_sound hr ht
  have := Selector.sizeOf_children_lt (hnested ▸ hs)
  refine ⟨below, hbelow, ?_⟩
  rw [maskTarget, hbelow]
  exact reports_maskFlat hr hsound children place
termination_by sizeOf selection

/--
**A mask is refused for a model just if it selects below a scalar field**, where nested selectors
lead through list items and nested models. Opaque, polymorphic and undeclared fields refuse nothing.
The error is an inconsistency, at the place that has the names of the first such chain in the order
of the mask.
-/
theorem maskModel_refused_iff {document : Json} {r : Registry} (h : Registry.load document = .ok r)
    {name : String} {model : Model} (hm : r.find? name = some model) (mask : Mask)
    (skipMissing : Bool) :
    ∃ flat, r.resolve model = .ok flat ∧
      ((∃ e, r.maskModel mask skipMissing model = .error e) ↔
        ∃ trail names, flat.Clash r mask.selectors trail names) ∧
      ∀ e, r.maskModel mask skipMissing model = .error e →
        ∃ trail names, flat.Clash r mask.selectors trail names ∧
          (∀ trail' names', flat.Clash r mask.selectors trail' names' → NotAfter trail trail') ∧
          ∃ place : Pointer, e = .inconsistent ⟨place⟩ ∧ place.segments = names ∧
            Pointer.ofText? place.shown = some place := by
  have hr : r.Sound := sound_of_load h
  obtain ⟨flat, hflat, hf⟩ := hr name model hm
  have hreports : Reports (clashesAt .root (flat.Clash r mask.selectors))
      (r.maskModel mask skipMissing model) := by
    rw [maskModel, hflat]
    exact reports_maskFlat hr hf mask.selectors .root
  obtain ⟨hiff, hfirst⟩ := hreports.refused_iff
  refine ⟨flat, hflat, hiff, fun e he => ?_⟩
  obtain ⟨trail, names, hclash, hleast, rfl⟩ := hfirst e he
  have hne : names ≠ [] := by
    cases hclash
    exact List.cons_ne_nil _ _
  exact ⟨trail, names, hclash, hleast, ⟨names⟩, rfl, rfl, Pointer.ofText?_shown hne⟩

/-- Toys are raw, cats have no tail, pets are polymorphic: the first clash is at a keeper's name. -/
theorem maskModel_refused_iff_menagerie :
    let mask : Mask := ⟨[.wildcard, .nested "toys" [.leaf "x"], .nested "tail" [.leaf "x"],
      .nested "keeper" [.nested "pets" [.leaf "x"], .nested "name" [.leaf "x"]],
      .nested "kind" [.leaf "x"]]⟩
    let place : Pointer := ⟨["keeper", "name"]⟩
    ∃ r model flat trail, Registry.load menagerie = .ok r ∧ r.find? "Cat" = some model ∧
      r.maskModel mask false model = .error (.inconsistent ⟨place⟩) ∧
      place.shown = "/keeper/name" ∧ r.resolve model = .ok flat ∧
      flat.Clash r mask.selectors trail place.segments ∧
      ∀ trail' names', flat.Clash r mask.selectors trail' names' → NotAfter trail trail' := by
  intro mask place
  have h : ((Registry.load menagerie).toOption.any fun r => (r.find? "Cat").any fun model =>
      match r.maskModel mask false model with
      | .error e => e = .inconsistent ⟨place⟩
      | .ok _ => false) = true := by
    cbv
  obtain ⟨r, hl, h⟩ := exists_of_any_toOption h
  obtain ⟨model, hm, h⟩ := (Option.any_eq_true _ _).1 h
  have herror : r.maskModel mask false model = .error (.inconsistent ⟨place⟩) := by
    split at h
    · rename_i he
      rw [he, of_decide_eq_true h]
    · cases h
  obtain ⟨flat, hflat, -, hplace⟩ := maskModel_refused_iff hl hm mask false
  obtain ⟨trail, _, hclash, hleast, _, heq, rfl, -⟩ := hplace _ herror
  obtain rfl := Inconsistency.mk.inj (MaskError.inconsistent.inj heq)
  exact ⟨r, model, flat, trail, hl, hm, herror, by decide +kernel, hflat, hclash, hleast⟩

end Registry

end FieldMask
