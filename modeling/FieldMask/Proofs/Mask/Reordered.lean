import FieldMask.Proofs.Mask.Again
import FieldMask.Proofs.Mask.Paths

/-!
# The order of siblings

Two masks that differ only in the order of siblings, at any levels, select the same of a value up to
the order of the members of its objects, or are both refused for it (`apply_reordered`). If siblings
name no field twice, the selector that decides on a key in the one list has its like in the other
(`deciding?_reordered`), and what a wildcard adds to the picked members is the same for both.
-/

namespace FieldMask

/-! ## Values -/

namespace Json

/-- The values are the same but for the order of members, in objects at any depth. -/
inductive Reordered : Json → Json → Prop
  | refl (v : Json) : Reordered v v
  | arr {items others : List Json} (h : List.Forall₂ Reordered items others) :
      Reordered (.arr items) (.arr others)
  | obj {members others moved : Members} (hk : Keyed.keys members = Keyed.keys others)
      (hv : List.Forall₂ Reordered (members.map (·.2)) (others.map (·.2)))
      (hp : others.Perm moved) : Reordered (.obj members) (.obj moved)

/-- Objects are reordered if reordered values are under the same keys, in whatever order. -/
theorem reordered_obj {members others moved : Members}
    (h : Keyed.Related (fun _ => Reordered) members others) (hp : others.Perm moved) :
    Reordered (.obj members) (.obj moved) := by
  refine .obj h.keys_eq ?_ hp
  rw [List.forall₂_map_left_iff, List.forall₂_map_right_iff]
  exact h.imp fun _ _ hab => hab.2

variable {f g : Pointer → Members → Except Inconsistency Members}

mutual

/-- What reorders the outcome for objects reorders it for values. -/
theorem mapObjects_reordered
    (h : ∀ place ms, EndAlike (fun out out' => Reordered (.obj out) (.obj out')) (f place ms)
      (g place ms)) :
    ∀ (v : Json) (place : Pointer), EndAlike Reordered (v.mapObjects f place) (v.mapObjects g place)
  | .arr items, place => (mapObjectsFrom_reordered h items place 0).bind fun _ _ hr => .arr hr
  | .obj members, place => (h place members).bind fun _ _ hr => hr
  | .null, _ => trivial
  | .bool _, _ => trivial
  | .num _, _ => trivial
  | .str _, _ => trivial

theorem mapObjectsFrom_reordered
    (h : ∀ place ms, EndAlike (fun out out' => Reordered (.obj out) (.obj out')) (f place ms)
      (g place ms)) :
    ∀ (vs : List Json) (place : Pointer) (index : Nat),
      EndAlike (List.Forall₂ Reordered) (mapObjectsFrom f place index vs)
        (mapObjectsFrom g place index vs)
  | [], _, _ => .nil
  | v :: vs, place, index =>
    (mapObjects_reordered h v _).bind fun _ _ hr =>
      (mapObjectsFrom_reordered h vs place (index + 1)).bind fun _ _ hrs => .cons hr hrs

end

end Json

/-! ## Masks -/

namespace Selector

/-- The selectors are the same but for the order of siblings, below them at any depth. -/
inductive Reordered : Selector → Selector → Prop
  | refl (s : Selector) : Reordered s s
  | nested (name : String) {children middle below : List Selector}
      (h : List.Forall₂ Reordered children middle) (hp : middle.Perm below) :
      Reordered (.nested name children) (.nested name below)

/-- The siblings are the same but for their order, and that of siblings below them. -/
def ReorderedEach (siblings others : List Selector) : Prop :=
  ∃ middle, List.Forall₂ Reordered siblings middle ∧ middle.Perm others

variable {skipMissing : Bool} {place : Pointer} {data out out' picked picked' : Members}
  {siblings others : List Selector} {s t : Selector} {key : String}

theorem reordered_cases (h : s.Reordered t) :
    s = t ∨ ∃ name children below, s = .nested name children ∧ t = .nested name below ∧
      ReorderedEach children below := by
  cases h with
  | refl => exact .inl rfl
  | nested name h hp => exact .inr ⟨name, _, _, rfl, rfl, _, h, hp⟩

theorem Reordered.selects_eq (h : s.Reordered t) : s.selects key = t.selects key := by
  rcases reordered_cases h with rfl | ⟨name, children, below, rfl, rfl, -⟩ <;> rfl

theorem Reordered.name_eq (h : s.Reordered t) : s.name = t.name := by
  rcases reordered_cases h with rfl | ⟨name, children, below, rfl, rfl, -⟩ <;> rfl

theorem Reordered.eq_wildcard_iff (h : s.Reordered t) : s = .wildcard ↔ t = .wildcard := by
  rcases reordered_cases h with rfl | ⟨name, children, below, rfl, rfl, -⟩ <;> simp

theorem ReorderedEach.exists_right (h : ReorderedEach siblings others) (hs : s ∈ siblings) :
    ∃ t ∈ others, s.Reordered t := by
  obtain ⟨middle, h, hp⟩ := h
  obtain ⟨t, ht, hst⟩ := exists_right_of_mem h hs
  exact ⟨t, hp.mem_iff.1 ht, hst⟩

theorem ReorderedEach.exists_left (h : ReorderedEach siblings others) (ht : t ∈ others) :
    ∃ s ∈ siblings, s.Reordered t := by
  obtain ⟨middle, h, hp⟩ := h
  exact exists_left_of_mem h (hp.mem_iff.2 ht)

theorem ReorderedEach.wildcard_mem_iff (h : ReorderedEach siblings others) :
    .wildcard ∈ siblings ↔ .wildcard ∈ others := by
  constructor
  · intro hs
    obtain ⟨t, ht, hst⟩ := h.exists_right hs
    exact hst.eq_wildcard_iff.1 rfl ▸ ht
  · intro ht
    obtain ⟨s, hs, hst⟩ := h.exists_left ht
    exact hst.eq_wildcard_iff.2 rfl ▸ hs

/-- The siblings pick the same of every object, up to the order of members. -/
def PicksAlike (skipMissing : Bool) (siblings others : List Selector) : Prop :=
  ∀ place data, EndAlike (fun out out' => Json.Reordered (.obj out) (.obj out'))
    (filter siblings skipMissing place data) (filter others skipMissing place data)

/-! ## Members -/

theorem selectFrom_reordered {value : Json}
    (h : s = t ∨ ∃ name children below, s = .nested name children ∧ t = .nested name below ∧
      PicksAlike skipMissing children below) :
    EndAlike Json.Reordered (s.selectFrom skipMissing place value)
      (t.selectFrom skipMissing place value) := by
  rcases h with rfl | ⟨name, children, below, rfl, rfl, h⟩
  · refine endAlike_iff.2 ⟨Iff.rfl, fun v w hv hw => ?_⟩
    rw [Except.ok.inj (hv.symm.trans hw)]
    exact .refl w
  · by_cases hnull : value = .null
    · rw [hnull, selectFrom_null, selectFrom_null]
      exact Json.Reordered.refl _
    · rw [selectFrom_nested hnull, selectFrom_nested hnull]
      exact Json.mapObjects_reordered h value _

theorem memberFrom_reordered {v : Option Json}
    (h : s = t ∨ ∃ name children below, s = .nested name children ∧ t = .nested name below ∧
      PicksAlike skipMissing children below) :
    EndAlike (Option.Rel Json.Reordered) (s.memberFrom skipMissing place v)
      (t.memberFrom skipMissing place v) := by
  cases v with
  | none =>
    cases skipMissing
    · exact Option.Rel.some (.refl _)
    · exact Option.Rel.none
  | some value => exact (selectFrom_reordered h).bind fun _ _ hr => Option.Rel.some hr

/-- What is picked under a key is picked from siblings in another order too, and only reordered. -/
theorem lookup_reordered (hn : (fieldNames siblings).Nodup) (h : ReorderedEach siblings others)
    (hst : ∀ s ∈ siblings, ∀ t, s.Reordered t → ∀ v, EndAlike (Option.Rel Json.Reordered)
      (s.memberFrom skipMissing place v) (t.memberFrom skipMissing place v))
    (hp : pickAll skipMissing place data [] siblings = .ok picked)
    (hp' : pickAll skipMissing place data [] others = .ok picked') (key : String) :
    (picked.lookup key = none ∧ picked'.lookup key = none) ∨
      ∃ v w, picked.lookup key = some v ∧ picked'.lookup key = some w ∧ v.Reordered w := by
  have hkey := lookup_pickAll hp key
  have hkey' := lookup_pickAll hp' key
  cases hd : deciding? key others with
  | none =>
    have hnone : deciding? key siblings = none := deciding?_eq_none_iff.2 fun s hs hk => by
      obtain ⟨t, ht, hlike⟩ := h.exists_right hs
      exact deciding?_eq_none_iff.1 hd t ht (hlike.selects_eq ▸ hk)
    rw [hnone] at hkey
    rw [hd] at hkey'
    exact .inl ⟨hkey, hkey'⟩
  | some t =>
    obtain ⟨ht, hk⟩ := mem_of_deciding? hd
    obtain ⟨s, hs, hlike⟩ := h.exists_left ht
    -- No other of the siblings names the key, so it is the like of `t` that decides on it.
    rw [deciding?_of_mem hn hs (hlike.selects_eq ▸ hk)] at hkey
    rw [hd] at hkey'
    obtain ⟨m, hm, hout⟩ := hkey
    obtain ⟨m', hm', hout'⟩ := hkey'
    rw [List.lookup_nil, Option.or_none] at hout hout'
    rw [hout, hout']
    cases (endAlike_iff.1 (hst s hs t hlike _)).2 m m' hm hm' with
    | none => exact .inl ⟨rfl, rfl⟩
    | some hr => exact .inr ⟨_, _, rfl, rfl, hr⟩

/-- The wildcard adds the same members to what is picked under the same keys. -/
theorem addRest_reordered (hn : (Keyed.keys picked).Nodup) (hn' : (Keyed.keys picked').Nodup)
    (hw : .wildcard ∈ siblings ↔ .wildcard ∈ others)
    (hkeys : ∀ key, (picked.lookup key = none ∧ picked'.lookup key = none) ∨
      ∃ v w, picked.lookup key = some v ∧ picked'.lookup key = some w ∧ v.Reordered w) :
    Json.Reordered (.obj (addRest siblings data picked)) (.obj (addRest others data picked')) := by
  obtain ⟨moved, hmoved, hperm⟩ := Keyed.exists_related_perm hn hn' hkeys
  have hcontains (key : String) : Keyed.contains picked key = Keyed.contains picked' key := by
    rcases hkeys key with ⟨hv, hw⟩ | ⟨v, w, hv, hw, -⟩ <;> simp [Keyed.contains, hv, hw]
  unfold addRest
  by_cases hwild : .wildcard ∈ siblings
  · rw [if_pos (any_isWildcard.2 hwild), if_pos (any_isWildcard.2 (hw.1 hwild))]
    simp only [hcontains]
    refine Json.reordered_obj (hmoved.append ?_) (hperm.append_right _)
    exact Keyed.related_self fun _ => .refl
  · rw [if_neg (any_isWildcard.not.2 hwild), if_neg (any_isWildcard.not.2 (hw.not.1 hwild))]
    exact Json.reordered_obj hmoved hperm

/-- **Siblings in another order pick the same of every object**, up to the order of members. -/
theorem picksAlike (siblings others : List Selector) (hn : (fieldNames siblings).Nodup)
    (he : NamesOnceEach siblings) (h : ReorderedEach siblings others) :
    PicksAlike skipMissing siblings others := by
  intro place data
  have hst : ∀ s ∈ siblings, ∀ t, s.Reordered t → ∀ v, EndAlike (Option.Rel Json.Reordered)
      (s.memberFrom skipMissing place v) (t.memberFrom skipMissing place v) := by
    intro s hs t hst v
    refine memberFrom_reordered ?_
    rcases reordered_cases hst with rfl | ⟨name, children, below, rfl, rfl, hbelow⟩
    · exact .inl rfl
    · have := sizeOf_children_lt hs
      obtain ⟨hn', he'⟩ := namesOnceEach_iff.1 he _ hs
      exact .inr ⟨name, children, below, rfl, rfl, picksAlike children below hn' he' hbelow⟩
  refine endAlike_iff.2 ⟨?_, fun out out' hout hout' => ?_⟩
  · rw [exists_filter_iff, exists_filter_iff]
    constructor
    · intro hall t ht hw
      obtain ⟨s, hs, hlike⟩ := h.exists_left ht
      have hm := hall s hs (hlike.eq_wildcard_iff.not.2 hw)
      exact hlike.name_eq ▸ (endAlike_iff.1 (hst s hs t hlike _)).1.1 hm
    · intro hall s hs hw
      obtain ⟨t, ht, hlike⟩ := h.exists_right hs
      have hm := hall t ht (hlike.eq_wildcard_iff.not.1 hw)
      exact (endAlike_iff.1 (hst s hs t hlike _)).1.2 (hlike.name_eq ▸ hm)
  · obtain ⟨picked, hp, rfl⟩ := filter_eq_ok.1 hout
    obtain ⟨picked', hp', rfl⟩ := filter_eq_ok.1 hout'
    exact addRest_reordered (nodup_keys_pickAll hp) (nodup_keys_pickAll hp') h.wildcard_mem_iff
      (lookup_reordered hn h hst hp hp')
termination_by sizeOf siblings

end Selector

namespace Mask

open Selector

variable {mask other : Mask}

/-- The masks are the same but for the order of siblings, at any levels. -/
def Reordered (mask other : Mask) : Prop := ReorderedEach mask.selectors other.selectors

/--
**The order of siblings is cosmetic.** If no siblings name a field twice, a mask selects something
of a value just if a mask with the siblings in another order does, and then both select the same up
to the order of members.
-/
theorem apply_reordered (hm : mask.NamesOnce) (h : mask.Reordered other) (skipMissing : Bool)
    (value : Json) :
    ((∃ out, mask.apply skipMissing value = .ok out) ↔
        ∃ out, other.apply skipMissing value = .ok out) ∧
      ∀ out out', mask.apply skipMissing value = .ok out →
        other.apply skipMissing value = .ok out' → out.Reordered out' := by
  have hpicks : PicksAlike skipMissing mask.selectors other.selectors :=
    picksAlike _ _ hm.1 hm.2 h
  exact endAlike_iff.1 (Json.mapObjects_reordered hpicks value .root)

/-- Siblings change places at two levels, behind a wildcard too; the members follow the masks. -/
theorem apply_reordered_levels :
    let mask : Mask := ⟨[.nested "a" [.leaf "b", .nested "c" [.wildcard], .leaf "d"], .wildcard,
      .leaf "e"]⟩
    let other : Mask := ⟨[.leaf "e", .nested "a" [.leaf "d", .leaf "b", .nested "c" [.wildcard]],
      .wildcard]⟩
    let value : Json := .obj [("x", .null), ("a", .arr [.obj [("b", .str "1")],
      .obj [("c", .obj [("y", .null)]), ("d", .bool true)]]), ("e", .obj [])]
    let out : Json := .obj [("a", .arr [.obj [("b", .str "1")],
      .obj [("c", .obj [("y", .null)]), ("d", .bool true)]]), ("e", .obj []), ("x", .null)]
    let out' : Json := .obj [("e", .obj []), ("a", .arr [.obj [("b", .str "1")],
      .obj [("d", .bool true), ("c", .obj [("y", .null)])]]), ("x", .null)]
    mask.NamesOnce ∧ mask.Reordered other ∧ mask.apply true value = .ok out ∧
      other.apply true value = .ok out' ∧ out.Reordered out' := by
  intro mask other value out out'
  have hm : mask.NamesOnce := by
    simp [mask, NamesOnce, NamesOnceEach, Selector.NamesOnce, fieldNames, names, isWildcard, name]
  have h : mask.Reordered other := by
    refine ⟨[.nested "a" [.leaf "d", .leaf "b", .nested "c" [.wildcard]], .wildcard, .leaf "e"],
      .cons (.nested "a" (List.forall₂_same.2 fun s _ => .refl s) ?_)
        (List.forall₂_same.2 fun s _ => .refl s), ?_⟩
    · decide
    · decide
  have hout : mask.apply true value = .ok out := by decide +kernel
  have hout' : other.apply true value = .ok out' := by decide +kernel
  exact ⟨hm, h, hout, hout', (apply_reordered hm h true value).2 out out' hout hout'⟩

end Mask

end FieldMask
