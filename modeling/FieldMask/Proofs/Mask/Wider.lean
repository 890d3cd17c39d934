import FieldMask.Proofs.Mask.Paths

/-!
# Narrower and wider masks

A mask is within another one if the other selects all that it selects (`Mask.Within`): it names a
field only where the other has that field whole, by a leaf or by the wildcard alone, or where both
go on below it and are within one another there.

A value may be filtered by the wider mask first (`apply_after_wider`). That takes members away, puts
nulls and moves members about, but under every key that the narrower mask names it leaves what that
mask makes the same thing of, or is refused at the same place for (`memberFrom_after`).
-/

namespace FieldMask

/-! ## Values -/

namespace Json

variable {f g : Pointer → Members → Except Inconsistency Members}

mutual

/-- What comes to the same for the objects of a value comes to the same for the value. -/
theorem mapObjects_after
    (h : ∀ place ms b, g place ms = .ok b → ∀ place', f place' b = f place' ms) :
    ∀ (v : Json) (place : Pointer) (w : Json), v.mapObjects g place = .ok w →
      ∀ place', w.mapObjects f place' = v.mapObjects f place'
  | .arr items, place, w, hw, place' => by
    obtain ⟨ws, hws, hw⟩ := bind_eq_ok.1 hw
    rw [← pure_eq_ok.1 hw, mapObjects, mapObjects, mapObjectsFrom_after h items _ _ _ hws]
  | .obj members, place, w, hw, place' => by
    obtain ⟨ms, hms, hw⟩ := bind_eq_ok.1 hw
    rw [← pure_eq_ok.1 hw, mapObjects, mapObjects, h _ _ _ hms]
  | .null, _, _, hw, _ => nomatch hw
  | .bool _, _, _, hw, _ => nomatch hw
  | .num _, _, _, hw, _ => nomatch hw
  | .str _, _, _, hw, _ => nomatch hw

theorem mapObjectsFrom_after
    (h : ∀ place ms b, g place ms = .ok b → ∀ place', f place' b = f place' ms) :
    ∀ (vs : List Json) (place : Pointer) (index : Nat) (ws : List Json),
      mapObjectsFrom g place index vs = .ok ws →
        ∀ place' index', mapObjectsFrom f place' index' ws = mapObjectsFrom f place' index' vs
  | [], _, _, ws, hw, _, _ => by rw [← Except.ok.inj hw]
  | v :: vs, place, index, ws, hw, place', index' => by
    obtain ⟨w, hw₁, hw⟩ := bind_eq_ok.1 hw
    obtain ⟨ws', hw₂, hw⟩ := bind_eq_ok.1 hw
    rw [← pure_eq_ok.1 hw, mapObjectsFrom, mapObjectsFrom, mapObjects_after h v _ _ hw₁,
      mapObjectsFrom_after h vs _ _ _ hw₂]

end

theorem ne_null_of_mapObjects {v w : Json} {place : Pointer} (h : v.mapObjects f place = .ok w) :
    w ≠ .null := by
  rcases mapObjects_cases h with ⟨_, _, _, rfl, _⟩ | ⟨_, _, _, rfl, _⟩ <;> nofun

end Json

/-! ## Masks -/

namespace Selector

/-- The siblings have the field whole, by a leaf or by nothing but the wildcard. -/
def TakesWhole (siblings : List Selector) (name : String) : Prop :=
  .leaf name ∈ siblings ∨ (name ∉ fieldNames siblings ∧ .wildcard ∈ siblings)

mutual

/-- Whatever the selector selects, the siblings select too. None reach as far as a wildcard. -/
def Within : Selector → List Selector → Prop
  | .wildcard, _ => False
  | .leaf name, wider => TakesWhole wider name
  | .nested name children, wider =>
    TakesWhole wider name ∨ ∃ below, .nested name below ∈ wider ∧ WithinEach children below

/-- Whatever any of the selectors selects, the siblings select too. -/
def WithinEach : List Selector → List Selector → Prop
  | [], _ => True
  | s :: rest, wider => s.Within wider ∧ WithinEach rest wider

end

variable {skipMissing : Bool} {place place' : Pointer} {data data' out picked : Members}
  {siblings narrower wider : List Selector} {s t : Selector}

theorem withinEach_iff : WithinEach narrower wider ↔ ∀ s ∈ narrower, s.Within wider := by
  induction narrower with
  | nil => simp [WithinEach]
  | cons s rest ih => simp [WithinEach, ih]

theorem not_mem_of_withinEach (h : WithinEach narrower wider) : .wildcard ∉ narrower := by
  intro hmem
  have hwild := withinEach_iff.1 h _ hmem
  rwa [Within] at hwild

theorem within_cases (h : s.Within wider) :
    TakesWhole wider s.name ∨ ∃ name children below, s = .nested name children ∧
      .nested name below ∈ wider ∧ WithinEach children below := by
  cases s with
  | wildcard =>
    rw [Within] at h
    exact h.elim
  | leaf name =>
    rw [Within] at h
    exact .inl h
  | nested name children =>
    rw [Within] at h
    exact h.imp_right fun ⟨below, hmem, hbelow⟩ => ⟨name, children, below, rfl, hmem, hbelow⟩

/-! ## Objects -/

/-- Siblings pick the same of two objects if each leaves the same of the member that it names. -/
theorem pickAll_congr (h : ∀ s ∈ siblings, s ≠ .wildcard →
      s.memberFrom skipMissing place (data.lookup s.name) =
        s.memberFrom skipMissing place (data'.lookup s.name)) :
    pickAll skipMissing place data picked siblings =
      pickAll skipMissing place data' picked siblings := by
  induction siblings generalizing picked with
  | nil => rw [pickAll, pickAll]
  | cons s rest ih =>
    obtain ⟨hs, hrest⟩ := List.forall_mem_cons.1 h
    have hpick : s.pick skipMissing place data picked = s.pick skipMissing place data' picked := by
      by_cases hw : s = .wildcard
      · rw [hw, pick_wildcard, pick_wildcard]
      · rw [pick_eq_memberFrom hw, pick_eq_memberFrom hw, hs hw]
    rw [pickAll, pickAll, hpick]
    exact bind_congr fun picked => ih hrest

theorem filter_eq_pickAll (h : .wildcard ∉ siblings) :
    filter siblings skipMissing place data = pickAll skipMissing place data [] siblings := by
  have hrest : ∀ picked, addRest siblings data picked = picked := fun picked =>
    if_neg (any_isWildcard.not.2 h)
  simp only [filter, hrest, bind_pure]

/-- What stands in for a missing member is treated like the missing member. -/
theorem memberFrom_of_missing {m : Option Json}
    (h : t.memberFrom skipMissing place none = .ok m) :
    s.memberFrom skipMissing place' m = s.memberFrom skipMissing place' none := by
  obtain rfl := Except.ok.inj h
  cases skipMissing
  · show (do return some (← s.selectFrom false place' .null)) = _
    rw [selectFrom_null]
    rfl
  · rfl

/-- The siblings make of whatever the others leave of an object what they make of the object. -/
def Unaffected (skipMissing : Bool) (siblings others : List Selector) : Prop :=
  ∀ place data out, filter others skipMissing place data = .ok out →
    ∀ place', filter siblings skipMissing place' out = filter siblings skipMissing place' data

theorem selectFrom_after {name : String} {children below : List Selector} {v w : Json}
    (hb : Unaffected skipMissing children below)
    (h : (nested name below).selectFrom skipMissing place v = .ok w) (place' : Pointer) :
    (nested name children).selectFrom skipMissing place' w =
      (nested name children).selectFrom skipMissing place' v := by
  by_cases hnull : v = .null
  · rw [hnull, selectFrom_null] at h
    rw [hnull, ← Except.ok.inj h]
  · rw [selectFrom_nested hnull] at h
    rw [selectFrom_nested hnull, selectFrom_nested (Json.ne_null_of_mapObjects h),
      Json.mapObjects_after hb v _ w h]

/-- A selector makes the same of a member after one of the same name that selects no less of it. -/
theorem memberFrom_after {v m : Option Json} (hst : s.name = t.name)
    (ht : t = .leaf t.name ∨ ∃ name children below, s = .nested name children ∧
      t = .nested name below ∧ Unaffected skipMissing children below)
    (h : t.memberFrom skipMissing place v = .ok m) (place' : Pointer) :
    s.memberFrom skipMissing place' m = s.memberFrom skipMissing place' v := by
  cases v with
  | none => exact memberFrom_of_missing h
  | some value =>
    obtain ⟨w, hw, rfl⟩ := memberFrom_some_eq_ok.1 h
    rcases ht with ht | ⟨name, children, below, rfl, rfl, hb⟩
    · rw [ht] at hw
      rw [← Except.ok.inj hw]
    · rw [memberFrom, memberFrom, selectFrom_after hb hw]

/-- **Siblings select the same of an object** before and after siblings that they are within. -/
theorem filter_after (narrower wider : List Selector) (hn : (fieldNames wider).Nodup)
    (he : NamesOnceEach wider) (hw : WithinEach narrower wider) :
    Unaffected skipMissing narrower wider := by
  intro place data out h place'
  rw [filter_eq_pickAll (not_mem_of_withinEach hw), filter_eq_pickAll (not_mem_of_withinEach hw)]
  refine pickAll_congr fun s hs _ => ?_
  -- Under the name of `s`, a leaf leaves the member whole, the wildcard alone copies it, and below
  -- a nested selector the induction goes on with the children of both.
  rcases within_cases (withinEach_iff.1 hw s hs) with
    (hleaf | ⟨hname, hwild⟩) | ⟨name, children, below, rfl, hmem, hin⟩
  · have hkey := memberFrom_of_mem hn hleaf nofun h
    exact memberFrom_after (s := s) (t := .leaf s.name) rfl (.inl rfl) hkey place'
  · rw [lookup_of_deciding?_eq_none h (deciding?_eq_none hname), if_pos hwild]
  · have := sizeOf_children_lt hs
    obtain ⟨hn', he'⟩ := namesOnceEach_iff.1 he _ hmem
    have hb : Unaffected skipMissing children below := filter_after children below hn' he' hin
    have hkey := memberFrom_of_mem hn hmem nofun h
    exact memberFrom_after (s := .nested name children) (t := .nested name below) rfl
      (.inr ⟨name, children, below, rfl, rfl, hb⟩) hkey place'
termination_by sizeOf narrower

end Selector

namespace Mask

open Selector

variable {narrower wider : Mask} {skipMissing : Bool} {value out : Json}

/--
The other mask selects all that the mask selects. A mask with a wildcard is within another one only
if the wildcard is below a field that the other has whole.
-/
def Within (narrower wider : Mask) : Prop := WithinEach narrower.selectors wider.selectors

/--
**Filtering by a wider mask first is harmless**: what a mask within it makes of the outcome is what
it makes of the value itself, with the members in the same order, and if it is refused then at the
same place.
-/
theorem apply_after_wider (hw : narrower.Within wider) (hm : wider.NamesOnce)
    (h : wider.apply skipMissing value = .ok out) :
    narrower.apply skipMissing out = narrower.apply skipMissing value :=
  Json.mapObjects_after (filter_after narrower.selectors wider.selectors hm.1 hm.2 hw) value .root
    out h .root

/-- The wider mask fills in nulls and moves `f` ahead; the narrower one is refused behind it too. -/
theorem apply_after_wider_items :
    let narrower : Mask := ⟨[.leaf "x", .nested "a" [.nested "b" [.leaf "c"]], .leaf "f"]⟩
    let wider : Mask := ⟨[.leaf "f", .wildcard, .nested "a" [.leaf "e", .leaf "b"]]⟩
    let value : Json := .obj [("x", .null), ("a", .arr [.obj [("g", .null), ("b", .obj [])],
      .obj [("b", .str "1")]]), ("f", .bool true)]
    let out : Json := .obj [("f", .bool true), ("a", .arr [.obj [("e", .null), ("b", .obj [])],
      .obj [("e", .null), ("b", .str "1")]]), ("x", .null)]
    narrower.Within wider ∧ wider.NamesOnce ∧ wider.apply false value = .ok out ∧
      narrower.apply false out = narrower.apply false value ∧
      narrower.apply false value = .error ⟨⟨["a", "1", "b"]⟩⟩ := by
  intro narrower wider value out
  have hw : narrower.Within wider := by
    simp [narrower, wider, Mask.Within, WithinEach, Selector.Within, TakesWhole, fieldNames, names,
      isWildcard, name]
  have hm : wider.NamesOnce := by
    simp [wider, NamesOnce, NamesOnceEach, Selector.NamesOnce, fieldNames, names, isWildcard, name]
  have h : wider.apply false value = .ok out := by decide +kernel
  exact ⟨hw, hm, h, apply_after_wider hw hm h, by decide +kernel⟩

end Mask

end FieldMask
