import FieldMask.Proofs.Faults
import FieldMask.Proofs.Mask.Picked
import FieldMask.Proofs.Pointer.Decoding

/-!
# Clashes of masks with values

A mask clashes with a value where it selects below a scalar. `Selector.Clash` says so of a trail
that leads to the scalar: it tells which item to take of an array, and which of the siblings to
follow into an object. As trails are compared like words, the first clash is the first one in the
order of the mask and of the arrays.

A mask is refused for a value just if there is a clash, and the place in the error is that of the
first one (`apply_refused_iff`).
-/

namespace FieldMask

namespace Json

/-- Whether the value is neither an array nor an object. -/
def isScalar : Json → Bool
  | .arr _ | .obj _ => false
  | _ => true

end Json

namespace Selector

/--
The trail leads to a scalar that the siblings select below: the value itself, an item or a member.
Items use up no level of the mask, and a member that is null is passed over. The segments are those
of the place of the scalar, which comes last.
-/
inductive Clash : List Selector → Json → List Nat → List String → Json → Prop
  | here {siblings : List Selector} {v : Json} (h : v.isScalar = true) : Clash siblings v [] [] v
  | item {siblings : List Selector} {items : List Json} {x w : Json} {i : Nat} {trail : List Nat}
      {segments : List String} (hx : items[i]? = some x) (h : Clash siblings x trail segments w) :
      Clash siblings (.arr items) (i :: trail) (Number.intText i :: segments) w
  | member {siblings children : List Selector} {members : Members} {x w : Json} {i : Nat}
      {name : String} {trail : List Nat} {segments : List String}
      (hs : siblings[i]? = some (.nested name children)) (hx : members.lookup name = some x)
      (hn : x ≠ .null) (h : Clash children x trail segments w) :
      Clash siblings (.obj members) (i :: trail) (name :: segments) w

/-- The clashes of siblings with the value at a place, as the errors that they lead to. -/
def clashes (siblings : List Selector) (v : Json) (place : Pointer) : Faults Inconsistency :=
  faultsAt Inconsistency.mk place fun trail segments => ∃ w, Clash siblings v trail segments w

/-- The clashes of a selector with the member of an object that it names. -/
def memberClashes (s : Selector) (members : Members) (place : Pointer) : Faults Inconsistency :=
  faultsBelow (members.lookup ·)
    (fun name children x trail e => x ≠ .null ∧ clashes children x (place.child name) trail e) s

variable {skipMissing : Bool} {place : Pointer} {members data picked : Members} {items : List Json}
  {siblings : List Selector} {s : Selector} {v w : Json} {trail : List Nat}
  {segments : List String} {e : Inconsistency}

/-! ## Where clashes are -/

theorem clashes_arr_iff :
    clashes siblings (.arr items) place trail e ↔
      faultsIn (fun i x => clashes siblings x (place.item i)) items trail e := by
  constructor
  · rintro ⟨_, ⟨w, hclash⟩, rfl⟩
    cases hclash with
    | here h => cases h
    | item hx h => exact ⟨_, hx, _, ⟨w, h⟩, by simp [Pointer.item, Pointer.child]⟩
  · intro h
    cases trail with
    | nil => exact h.elim
    | cons i trail =>
      obtain ⟨x, hx, segments, ⟨w, hclash⟩, rfl⟩ := h
      exact ⟨_, ⟨w, .item hx hclash⟩, by simp [Pointer.item, Pointer.child]⟩

theorem clashes_obj_iff :
    clashes siblings (.obj members) place trail e ↔
      faultsIn (fun _ s => memberClashes s members place) siblings trail e := by
  constructor
  · rintro ⟨_, ⟨w, hclash⟩, rfl⟩
    cases hclash with
    | here h => cases h
    | member hs hx hn h =>
      exact ⟨_, hs, _, _, _, rfl, hx, hn, _, ⟨w, h⟩, by simp [Pointer.child]⟩
  · intro h
    cases trail with
    | nil => exact h.elim
    | cons i trail =>
      obtain ⟨_, hs, name, children, x, rfl, hx, hn, segments, ⟨w, hclash⟩, rfl⟩ := h
      exact ⟨_, ⟨w, .member hs hx hn hclash⟩, by simp [Pointer.child]⟩

/-- A clash is where the segments of its place lead in the value. -/
theorem Clash.resolve? (h : Clash siblings v trail segments w) :
    v.resolve? ⟨segments⟩ = some w := by
  induction h with
  | here => rfl
  | item hx _ ih =>
    rw [Json.resolve?_cons, Json.refer?_item, hx]
    exact ih
  | member _ hx _ _ ih =>
    rw [Json.resolve?_cons, Json.refer?, hx]
    exact ih

/-- Nothing but a scalar is at the place of the root. -/
theorem Clash.eq_nil_iff (h : Clash siblings v trail segments w) :
    segments = [] ↔ v.isScalar = true := by
  cases h with
  | here h => exact ⟨fun _ => h, fun _ => rfl⟩
  | item => exact ⟨nofun, nofun⟩
  | member => exact ⟨nofun, nofun⟩

end Selector

/-! ## Reports -/

namespace Json

open Selector (clashes)

variable {f : Pointer → Members → Except Inconsistency Members} {siblings : List Selector}

theorem reports_of_isScalar {v : Json} (h : v.isScalar = true) (place : Pointer) :
    Reports (clashes siblings v place) (.error ⟨place⟩ : Except Inconsistency Json) :=
  reports_error ⟨[], ⟨v, .here h⟩, by simp⟩

mutual

/-- If the clashes with objects are reported, those with a value are. -/
theorem reports_mapObjects
    (h : ∀ place members, Reports (clashes siblings (.obj members) place) (f place members)) :
    ∀ (v : Json) (place : Pointer), Reports (clashes siblings v place) (v.mapObjects f place)
  | .arr items, place =>
    ((reports_mapObjectsFrom h items place 0).congr fun trail e => by
      rw [Selector.clashes_arr_iff]
      simp only [Nat.zero_add]).bind fun outs => ⟨.arr outs, rfl⟩
  | .obj members, place => (h place members).bind fun out => ⟨.obj out, rfl⟩
  | .null, place => reports_of_isScalar rfl place
  | .bool _, place => reports_of_isScalar rfl place
  | .num _, place => reports_of_isScalar rfl place
  | .str _, place => reports_of_isScalar rfl place

theorem reports_mapObjectsFrom
    (h : ∀ place members, Reports (clashes siblings (.obj members) place) (f place members)) :
    ∀ (vs : List Json) (place : Pointer) (index : Nat),
      Reports (faultsIn (fun i v => clashes siblings v (place.item (index + i))) vs)
        (mapObjectsFrom f place index vs)
  | [], _, _ => reports_faultsIn_nil
  | v :: vs, place, index => by
    refine Reports.cons (reports_mapObjects h v (place.item index)) fun w => ?_
    refine Reports.bind ?_ fun ws => ⟨w :: ws, rfl⟩
    simpa only [Nat.add_assoc, Nat.add_comm 1] using reports_mapObjectsFrom h vs place (index + 1)

end

end Json

namespace Selector

variable {skipMissing : Bool} {place : Pointer} {data picked : Members} {s : Selector}

theorem reports_selectFrom {value : Json}
    (h : ∀ name children, s = .nested name children → ∀ place members,
      Reports (clashes children (.obj members) place) (filter children skipMissing place members))
    (hv : data.lookup s.name = some value) :
    Reports (memberClashes s data place) (s.selectFrom skipMissing place value) := by
  cases s with
  | wildcard => exact reports_not_nested nofun
  | leaf name => exact reports_not_nested nofun
  | nested name children =>
    by_cases hn : value = .null
    · rw [hn, selectFrom_null]
      exact fun trail e hclash => ((faultsBelow_nested_iff hv).1 hclash).1 hn
    · rw [selectFrom_nested hn]
      refine (Json.reports_mapObjects (h name children rfl) value _).congr fun trail e => ?_
      exact ((faultsBelow_nested_iff hv).trans (and_iff_right hn)).symm

theorem reports_pick
    (h : ∀ name children, s = .nested name children → ∀ place members,
      Reports (clashes children (.obj members) place) (filter children skipMissing place members)) :
    Reports (memberClashes s data place) (s.pick skipMissing place data picked) := by
  by_cases hw : s = .wildcard
  · rw [hw, pick_wildcard]
    exact reports_not_nested nofun
  · rw [pick_eq hw]
    cases hv : data.lookup s.name with
    | none => exact reports_of_lacking hv
    | some value => exact (reports_selectFrom h hv).bind fun w => ⟨_, rfl⟩

/-- **Picking members reports the first clash** with one of them. -/
theorem reports_filter (siblings : List Selector) (place : Pointer) (members : Members) :
    Reports (clashes siblings (.obj members) place)
      (filter siblings skipMissing place members) := by
  rw [filter, pickAll_eq_foldlM]
  refine Reports.bind (Reports.congr (reports_foldlM fun picked s hs => ?_)
    fun trail e => clashes_obj_iff.symm) fun picked => ⟨_, rfl⟩
  refine reports_pick fun name children hnested place members => ?_
  have := sizeOf_children_lt (hnested ▸ hs)
  exact reports_filter children place members
termination_by sizeOf siblings

end Selector

namespace Mask

open Selector

/--
**A mask is refused for a value just if it selects below a scalar**: the value itself, an item of an
array or a member that is not null, wherever items and nested selectors lead. The place in the error
is that of the first such scalar in the order of the mask and of the arrays. It is shown as `/` if
the value itself is a scalar, and otherwise as a pointer that resolves to the scalar.
-/
theorem apply_refused_iff (mask : Mask) (skipMissing : Bool) (value : Json) :
    ((∃ e, mask.apply skipMissing value = .error e) ↔
        ∃ trail segments w, Clash mask.selectors value trail segments w) ∧
      ∀ e, mask.apply skipMissing value = .error e →
        ∃ trail segments w, Clash mask.selectors value trail segments w ∧
          (∀ trail' segments' w', Clash mask.selectors value trail' segments' w' →
            NotAfter trail trail') ∧
          if value.isScalar then e.place.shown = "/"
          else ∃ p, Pointer.ofText? e.place.shown = some p ∧ p.segments = segments ∧
            value.resolve? p = some w := by
  have hreports : Reports (clashes mask.selectors value .root) (mask.apply skipMissing value) :=
    Json.reports_mapObjects (reports_filter mask.selectors) value .root
  obtain ⟨hiff, hfirst⟩ := hreports.refused_iff
  refine ⟨hiff, fun e he => ?_⟩
  obtain ⟨trail, segments, ⟨w, hclash⟩, hleast, rfl⟩ := hfirst e he
  refine ⟨trail, segments, w, hclash, fun trail' segments' w' hclash' => ?_, ?_⟩
  · exact hleast trail' segments' ⟨w', hclash'⟩
  · split
    · rename_i hscalar
      rw [hclash.eq_nil_iff.2 hscalar]
      rfl
    · rename_i hscalar
      have hne : segments ≠ [] := hclash.eq_nil_iff.not.2 hscalar
      exact ⟨⟨segments⟩, Pointer.ofText?_shown hne, rfl, hclash.resolve?⟩

/-- Nulls of members are passed over, and the scalar under `c` stands behind in the mask. -/
theorem apply_refused_iff_items :
    let mask : Mask := ⟨[.nested "n" [.leaf "k"], .wildcard,
      .nested "a" [.nested "x/y" [.leaf "z"]], .nested "c" [.leaf "z"]]⟩
    let value : Json := .obj [("c", .str "1"), ("n", .null), ("a", .arr [.obj [("x/y", .null)],
      .arr [.obj [("x/y", .bool true)]], .null])]
    let place : Pointer := ⟨["a", "1", "0", "x/y"]⟩
    mask.apply true value = .error ⟨place⟩ ∧ place.shown = "/a/1/0/x~1y" ∧
      ∃ trail segments w p, Clash mask.selectors value trail segments w ∧
        Pointer.ofText? place.shown = some p ∧ p.segments = segments ∧
        value.resolve? p = some w := by
  intro mask value place
  have h : mask.apply true value = .error ⟨place⟩ := by decide +kernel
  obtain ⟨trail, segments, w, hclash, -, hplace⟩ := (apply_refused_iff mask true value).2 _ h
  obtain ⟨p, hp, hsegments, hw⟩ := hplace
  exact ⟨h, by decide +kernel, trail, segments, w, p, hclash, hp, hsegments, hw⟩

end Mask

end FieldMask
