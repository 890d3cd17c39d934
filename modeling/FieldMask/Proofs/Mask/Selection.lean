import FieldMask.Mask.Selection
import FieldMask.Proofs.Keyed
import FieldMask.Proofs.Mask.Siblings
import FieldMask.Proofs.Outcome

/-!
# What masks make of values

A selector that names a member of an object puts what it leaves of that member under its name
(`pick_eq`): a nested selector filters the objects in it, another one takes it whole. The place only
shows in errors: what a mask selects is the same wherever the value stands (`filter_unique`).
-/

namespace FieldMask

/-! ## Objects of a value -/

namespace Json

variable {f : Pointer → Members → Except Inconsistency Members} {place : Pointer} {index : Nat}
  {v w : Json} {items outs : List Json}

/-- Only arrays and objects are mapped, each to one of its kind. -/
theorem mapObjects_cases (h : v.mapObjects f place = .ok w) :
    (∃ items outs, v = .arr items ∧ w = .arr outs ∧
        mapObjectsFrom f place 0 items = .ok outs) ∨
      ∃ members out, v = .obj members ∧ w = .obj out ∧ f place members = .ok out := by
  cases v with
  | arr items =>
    obtain ⟨outs, ho, h⟩ := bind_eq_ok.1 h
    exact .inl ⟨items, outs, rfl, (pure_eq_ok.1 h).symm, ho⟩
  | obj members =>
    obtain ⟨out, ho, h⟩ := bind_eq_ok.1 h
    exact .inr ⟨members, out, rfl, (pure_eq_ok.1 h).symm, ho⟩
  | _ => cases h

theorem length_mapObjectsFrom (h : mapObjectsFrom f place index items = .ok outs) :
    outs.length = items.length := by
  induction items generalizing index outs with
  | nil => rw [← Except.ok.inj h]
  | cons x xs ih =>
    obtain ⟨y, -, h⟩ := bind_eq_ok.1 h
    obtain ⟨ys, hys, h⟩ := bind_eq_ok.1 h
    rw [← pure_eq_ok.1 h, List.length_cons, List.length_cons, ih hys]

/-- An item is mapped where it stands. -/
theorem getElem?_mapObjectsFrom (h : mapObjectsFrom f place index items = .ok outs) (i : Nat) :
    (items[i]? = none ∧ outs[i]? = none) ∨
      ∃ x y, items[i]? = some x ∧ outs[i]? = some y ∧
        x.mapObjects f (place.item (index + i)) = .ok y := by
  induction items generalizing index outs i with
  | nil =>
    rw [← Except.ok.inj h]
    exact .inl ⟨rfl, rfl⟩
  | cons x xs ih =>
    obtain ⟨y, hy, h⟩ := bind_eq_ok.1 h
    obtain ⟨ys, hys, h⟩ := bind_eq_ok.1 h
    rw [← pure_eq_ok.1 h]
    cases i with
    | zero => exact .inr ⟨x, y, rfl, rfl, hy⟩
    | succ i =>
      rw [List.getElem?_cons_succ, List.getElem?_cons_succ, Nat.add_comm i, ← Nat.add_assoc]
      exact ih hys i

end Json

/-! ## Members of an object -/

namespace Selector

variable {skipMissing : Bool} {place : Pointer} {data picked : Members} {siblings : List Selector}

@[simp] theorem isWildcard_iff {s : Selector} : s.isWildcard = true ↔ s = .wildcard := by
  cases s <;> simp [isWildcard]

/-- What a selector leaves of the member that it names. -/
def selectFrom (skipMissing : Bool) (place : Pointer) (value : Json) :
    Selector → Except Inconsistency Json
  | .nested name children =>
    match value with
    | .null => .ok .null
    | value => value.mapObjects (filter children skipMissing) (place.child name)
  | _ => .ok value

theorem selectFrom_nested {name : String} {children : List Selector} {value : Json}
    (h : value ≠ .null) :
    (nested name children).selectFrom skipMissing place value =
      value.mapObjects (filter children skipMissing) (place.child name) := by
  cases value with
  | null => exact absurd rfl h
  | _ => rfl

theorem pick_wildcard : Selector.wildcard.pick skipMissing place data picked = .ok picked := by
  rw [pick]

theorem pick_eq {s : Selector} (hs : s ≠ .wildcard) :
    s.pick skipMissing place data picked =
      match data.lookup s.name with
      | none => .ok (if skipMissing then picked else Keyed.put s.name .null picked)
      | some value => do
        return Keyed.put s.name (← s.selectFrom skipMissing place value) picked := by
  cases s with
  | wildcard => exact absurd rfl hs
  | leaf name =>
    rw [pick, Selector.name]
    cases data.lookup name <;> rfl
  | nested name children =>
    rw [pick, Selector.name]
    cases data.lookup name with
    | none => rfl
    | some value => cases value <;> rfl

theorem pickAll_eq_foldlM :
    pickAll skipMissing place data picked siblings =
      siblings.foldlM (fun picked s => s.pick skipMissing place data picked) picked := by
  induction siblings generalizing picked with
  | nil => rw [pickAll]; rfl
  | cons s rest ih =>
    rw [pickAll, List.foldlM_cons]
    exact bind_congr fun picked => ih

theorem filter_eq_ok {out : Members} :
    filter siblings skipMissing place data = .ok out ↔
      ∃ picked, pickAll skipMissing place data [] siblings = .ok picked ∧
        addRest siblings data picked = out := by
  simp [filter]

end Selector

/-! ## Places -/

namespace Json

/-- The outcome is the same at all places. -/
def PlaceFree {α β : Type} (f : Pointer → α → Except Inconsistency β) : Prop :=
  ∀ place place' a b b', f place a = .ok b → f place' a = .ok b' → b = b'

mutual

theorem mapObjects_unique {f : Pointer → Members → Except Inconsistency Members}
    (hf : PlaceFree f) : ∀ (v : Json) (place place' : Pointer) (w w' : Json),
      v.mapObjects f place = .ok w → v.mapObjects f place' = .ok w' → w = w'
  | .arr items, place, place', w, w', h, h' => by
    obtain ⟨ws, hws, h⟩ := bind_eq_ok.1 h
    obtain ⟨ws', hws', h'⟩ := bind_eq_ok.1 h'
    rw [← pure_eq_ok.1 h, ← pure_eq_ok.1 h', mapObjectsFrom_unique hf items _ _ _ _ _ _ hws hws']
  | .obj members, place, place', w, w', h, h' => by
    obtain ⟨ms, hms, h⟩ := bind_eq_ok.1 h
    obtain ⟨ms', hms', h'⟩ := bind_eq_ok.1 h'
    rw [← pure_eq_ok.1 h, ← pure_eq_ok.1 h', hf _ _ _ _ _ hms hms']
  | .null, _, _, _, _, h, _ => nomatch h
  | .bool _, _, _, _, _, h, _ => nomatch h
  | .num _, _, _, _, _, h, _ => nomatch h
  | .str _, _, _, _, _, h, _ => nomatch h

theorem mapObjectsFrom_unique {f : Pointer → Members → Except Inconsistency Members}
    (hf : PlaceFree f) : ∀ (vs : List Json) (place place' : Pointer) (i j : Nat)
      (ws ws' : List Json), mapObjectsFrom f place i vs = .ok ws →
        mapObjectsFrom f place' j vs = .ok ws' → ws = ws'
  | [], _, _, _, _, _, _, h, h' => by
    rw [← Except.ok.inj h, ← Except.ok.inj h']
  | v :: vs, place, place', i, j, ws, ws', h, h' => by
    obtain ⟨w, hw, h⟩ := bind_eq_ok.1 h
    obtain ⟨rest, hrest, h⟩ := bind_eq_ok.1 h
    obtain ⟨w', hw', h'⟩ := bind_eq_ok.1 h'
    obtain ⟨rest', hrest', h'⟩ := bind_eq_ok.1 h'
    rw [← pure_eq_ok.1 h, ← pure_eq_ok.1 h', mapObjects_unique hf v _ _ _ _ hw hw',
      mapObjectsFrom_unique hf vs _ _ _ _ _ _ hrest hrest']

end

end Json

namespace Selector

open Json (PlaceFree)

variable {skipMissing : Bool} {place place' : Pointer} {s : Selector}

theorem selectFrom_unique {value w w' : Json}
    (hs : ∀ name children, s = .nested name children → PlaceFree (filter children skipMissing))
    (h : s.selectFrom skipMissing place value = .ok w)
    (h' : s.selectFrom skipMissing place' value = .ok w') : w = w' := by
  cases s with
  | wildcard => rw [← Except.ok.inj h, ← Except.ok.inj h']
  | leaf name => rw [← Except.ok.inj h, ← Except.ok.inj h']
  | nested name children =>
    by_cases hv : value = .null
    · subst hv
      rw [← Except.ok.inj h, ← Except.ok.inj h']
    · rw [selectFrom_nested hv] at h h'
      exact Json.mapObjects_unique (hs name children rfl) value _ _ _ _ h h'

theorem pick_unique {data picked out out' : Members}
    (hs : ∀ name children, s = .nested name children → PlaceFree (filter children skipMissing))
    (h : s.pick skipMissing place data picked = .ok out)
    (h' : s.pick skipMissing place' data picked = .ok out') : out = out' := by
  by_cases hw : s = .wildcard
  · subst hw
    rw [pick_wildcard] at h h'
    rw [← Except.ok.inj h, ← Except.ok.inj h']
  · rw [pick_eq hw] at h h'
    cases hl : data.lookup s.name with
    | none =>
      rw [hl] at h h'
      rw [← Except.ok.inj h, ← Except.ok.inj h']
    | some value =>
      rw [hl] at h h'
      obtain ⟨w, hw, h⟩ := bind_eq_ok.1 h
      obtain ⟨w', hw', h'⟩ := bind_eq_ok.1 h'
      rw [← pure_eq_ok.1 h, ← pure_eq_ok.1 h', selectFrom_unique hs hw hw']

/-- **What siblings select is the same at all places.** -/
theorem filter_unique (siblings : List Selector) (skipMissing : Bool) :
    PlaceFree (filter siblings skipMissing) := by
  intro place place' data out out' h h'
  obtain ⟨picked, hp, rfl⟩ := filter_eq_ok.1 h
  obtain ⟨picked', hp', rfl⟩ := filter_eq_ok.1 h'
  rw [pickAll_eq_foldlM] at hp hp'
  have heq : picked = picked' := by
    refine foldlM_induct₂ (R := Eq) ?_ rfl hp hp'
    rintro picked _ s hs out out' rfl h h'
    refine pick_unique (fun name children hnested => ?_) h h'
    have := sizeOf_children_lt (hnested ▸ hs)
    exact filter_unique children skipMissing
  rw [heq]
termination_by sizeOf siblings

end Selector

end FieldMask
