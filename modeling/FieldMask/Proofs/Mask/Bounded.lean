import FieldMask.Proofs.Mask.Paths

/-!
# Paths that a mask admits

A mask without wildcards names every key that it lets through: along a path each key is named at
its level, a nested name hands the path on to its children, and below a leaf anything may follow.
`Mask.Admits` says so of paths, and `admits_of_mapObjects` that nothing else is left of a value.
-/

namespace FieldMask

namespace Json

variable {v w : Json} {step : Step} {path : List Step}

/-- A path goes on to an item of an array or to a member of an object. -/
theorem follow?_cons_eq_some (h : v.follow? (step :: path) = some w) :
    (∃ items index x, v = .arr items ∧ step = .item index ∧ items[index]? = some x ∧
        x.follow? path = some w) ∨
      ∃ members name x, v = .obj members ∧ step = .key name ∧ members.lookup name = some x ∧
        x.follow? path = some w := by
  rw [follow?_cons] at h
  obtain ⟨x, hx, hw⟩ := Option.bind_eq_some_iff.1 h
  cases step with
  | item index =>
    obtain ⟨items, hitems, hx⟩ := Option.bind_eq_some_iff.1 hx
    cases v with
    | arr _ =>
      obtain rfl := Option.some.inj hitems
      exact .inl ⟨_, index, x, rfl, rfl, hx, hw⟩
    | _ => cases hitems
  | key name =>
    cases v with
    | obj members => exact .inr ⟨members, name, x, rfl, rfl, hx, hw⟩
    | _ => cases hx

/-- A path ends at a value that is neither an array nor an object. -/
theorem eq_nil_of_follow? (ha : ∀ items, v ≠ .arr items) (ho : ∀ members, v ≠ .obj members)
    (h : v.follow? path = some w) : path = [] := by
  cases path with
  | nil => rfl
  | cons step path =>
    rcases follow?_cons_eq_some h with ⟨items, _, _, heq, -⟩ | ⟨members, _, _, heq, -⟩
    · exact absurd heq (ha items)
    · exact absurd heq (ho members)

end Json

namespace Selector

mutual

/-- Neither the selector nor one below it is a wildcard. -/
def Named : Selector → Prop
  | .wildcard => False
  | .leaf _ => True
  | .nested _ children => NamedEach children

/-- None of the selectors, and none below them, is a wildcard. -/
def NamedEach : List Selector → Prop
  | [] => True
  | s :: rest => s.Named ∧ NamedEach rest

end

/--
Each key of the path is named at its level. The children of a nested name are the level below it,
and below a leaf any key may follow; items of arrays use up no level.
-/
inductive Admits : List Selector → List Json.Step → Prop
  | done {siblings : List Selector} : Admits siblings []
  | item {siblings : List Selector} {index : Nat} {path : List Json.Step}
      (h : Admits siblings path) : Admits siblings (.item index :: path)
  | leaf {siblings : List Selector} {name : String} {path : List Json.Step}
      (hs : .leaf name ∈ siblings) : Admits siblings (.key name :: path)
  | nested {siblings children : List Selector} {name : String} {path : List Json.Step}
      (hs : .nested name children ∈ siblings) (h : Admits children path) :
      Admits siblings (.key name :: path)

variable {siblings children : List Selector} {s : Selector} {name : String} {skipMissing : Bool}

theorem admits_key_iff {path : List Json.Step} :
    Admits siblings (.key name :: path) ↔
      .leaf name ∈ siblings ∨
        ∃ children, .nested name children ∈ siblings ∧ Admits children path := by
  constructor
  · intro h
    cases h with
    | leaf hs => exact .inl hs
    | nested hs h => exact .inr ⟨_, hs, h⟩
  · rintro (hs | ⟨children, hs, h⟩)
    · exact .leaf hs
    · exact .nested hs h

theorem namedEach_iff : NamedEach siblings ↔ ∀ s ∈ siblings, s.Named := by
  induction siblings with
  | nil => simp [NamedEach]
  | cons s rest ih => simp [NamedEach, ih]

theorem wildcard_not_mem (hn : NamedEach siblings) : .wildcard ∉ siblings :=
  fun h => namedEach_iff.1 hn _ h

theorem namedEach_of_nested (hn : NamedEach siblings) (hs : .nested name children ∈ siblings) :
    NamedEach children :=
  namedEach_iff.1 hn _ hs

/--
Where siblings without wildcards pick a member, they name its key. What they leave below a nested
name is a null or what the children leave of a value.
-/
theorem names_of_filter (hn : NamedEach siblings) {place : Pointer} {members picked : Members}
    (hf : filter siblings skipMissing place members = .ok picked) {y : Json}
    (hy : picked.lookup name = some y) :
    .leaf name ∈ siblings ∨ ∃ children, .nested name children ∈ siblings ∧
      (y = .null ∨ ∃ (value : Json) (place : Pointer),
        value.mapObjects (filter children skipMissing) place = .ok y) := by
  cases hd : deciding? name siblings with
  | none =>
    have hkey := lookup_of_deciding?_eq_none hf hd
    rw [if_neg (wildcard_not_mem hn)] at hkey
    cases hkey.symm.trans hy
  | some s =>
    obtain ⟨hs, hselects⟩ := mem_of_deciding? hd
    obtain ⟨hwild, rfl⟩ := selects_iff.1 hselects
    have hkey := memberFrom_of_deciding? hf hd
    rw [hy] at hkey
    cases s with
    | wildcard => exact absurd rfl hwild
    | leaf key => exact .inl hs
    | nested key children =>
      refine .inr ⟨children, hs, ?_⟩
      cases hv : members.lookup key with
      | none =>
        rw [Selector.name, hv, memberFrom] at hkey
        cases skipMissing <;> cases hkey
        exact .inl rfl
      | some value =>
        rw [Selector.name, hv] at hkey
        obtain ⟨u, hu, heq⟩ := memberFrom_some_eq_ok.1 hkey
        obtain rfl := Option.some.inj heq
        by_cases hnull : value = .null
        · rw [hnull, selectFrom_null] at hu
          exact .inl (Except.ok.inj hu).symm
        · rw [selectFrom_nested hnull] at hu
          exact .inr ⟨value, _, hu⟩

/-- **What siblings without wildcards leave of a value lies on the paths that they admit.** -/
theorem admits_of_mapObjects (hn : NamedEach siblings) {v w x : Json} {place : Pointer}
    (h : v.mapObjects (filter siblings skipMissing) place = .ok w) {path : List Json.Step}
    (hx : w.follow? path = some x) : Admits siblings path := by
  induction path generalizing siblings v w place with
  | nil => exact .done
  | cons step path ih =>
    rcases Json.mapObjects_cases h with
      ⟨items, outs, rfl, rfl, hs⟩ | ⟨members, picked, rfl, rfl, hf⟩
    · rcases Json.follow?_cons_eq_some hx with
        ⟨_, index, y, heq, rfl, hy, hx⟩ | ⟨_, _, _, heq, -⟩
      · obtain rfl := Json.arr.inj heq
        rcases Json.getElem?_mapObjectsFrom hs index with ⟨-, hnone⟩ | ⟨u, y', -, hy', huy⟩
        · cases hnone.symm.trans hy
        · obtain rfl := Option.some.inj (hy.symm.trans hy')
          exact .item (ih hn huy hx)
      · cases heq
    · rcases Json.follow?_cons_eq_some hx with
        ⟨_, _, _, heq, -⟩ | ⟨_, name, y, heq, rfl, hy, hx⟩
      · cases heq
      · obtain rfl := Json.obj.inj heq
        rcases names_of_filter hn hf hy with hs | ⟨children, hs, rfl | ⟨value, place, hvalue⟩⟩
        · exact .leaf hs
        · rw [Json.eq_nil_of_follow? (v := .null) nofun nofun hx]
          exact .nested hs .done
        · exact .nested hs (ih (namedEach_of_nested hn hs) hvalue hx)

end Selector

namespace Mask

/-- No selector of the mask is a wildcard, at any level. -/
def Named (mask : Mask) : Prop := Selector.NamedEach mask.selectors

/-- The mask names the keys of the path. -/
def Admits (mask : Mask) (path : List Json.Step) : Prop := Selector.Admits mask.selectors path

end Mask

end FieldMask
