import FieldMask.Proofs.Mask.Picked
import Mathlib.Data.List.Nodup

/-!
# What a mask selects along paths

A path leads from a value through members of objects and items of arrays. Along it the mask is
followed too, where items use up no level: `Selector.Level` says which siblings are met at its end.
A path is hidden if it comes to a key that no sibling at its level selects, and it is whole from the
key of a leaf on, or from a key that only the wildcard selects.

`follow?_apply` says what a mask leaves at every path: nothing at hidden ones, all of the value at
whole ones, a null or nothing where the mask names a member that an object lacks, and arrays with
all of their items where selection goes on below.
-/

namespace FieldMask

/-! ## Paths -/

namespace Json

/-- A step down in a value: to the member of an object or to an item of an array. -/
inductive Step
  | key (name : String)
  | item (index : Nat)

/-- The value that a step leads to. -/
def next? (v : Json) : Step → Option Json
  | .key name => v.get? name
  | .item index => v.items?.bind (·[index]?)

/-- The value at the end of a path. -/
def follow? (v : Json) (path : List Step) : Option Json := path.foldlM next? v

variable {v w : Json} {path rest : List Step} {step : Step} {x : Option Json}

theorem follow?_cons : v.follow? (step :: path) = (v.next? step).bind (·.follow? path) := rfl

theorem follow?_append : v.follow? (path ++ rest) = (v.follow? path).bind (·.follow? rest) :=
  List.foldlM_append

theorem follow?_behind {name : String} :
    v.follow? (path ++ .key name :: rest) =
      ((v.follow? path).bind (·.next? (.key name))).bind (·.follow? rest) := by
  rw [follow?_append, Option.bind_assoc]
  rfl

theorem next?_key_of_not_obj (h : ∀ members, x ≠ some (.obj members)) (name : String) :
    x.bind (·.next? (.key name)) = none := by
  cases x with
  | none => rfl
  | some v =>
    cases v with
    | obj members => exact absurd rfl (h members)
    | _ => rfl

end Json

/-! ## Levels of a mask -/

namespace Selector

/-- The names of the fields that siblings name, in order. -/
def fieldNames (siblings : List Selector) : List String :=
  names (siblings.filter fun s => !s.isWildcard)

mutual

/-- No siblings below the selector name a field twice. -/
def NamesOnce : Selector → Prop
  | .nested _ children => (fieldNames children).Nodup ∧ NamesOnceEach children
  | _ => True

/-- No siblings below the selectors name a field twice. -/
def NamesOnceEach : List Selector → Prop
  | [] => True
  | s :: rest => s.NamesOnce ∧ NamesOnceEach rest

end

/-- The siblings that a mask comes to at the end of a path. -/
inductive Level : List Selector → List Json.Step → List Selector → Prop
  | root {siblings : List Selector} : Level siblings [] siblings
  | item {siblings level : List Selector} {index : Nat} {path : List Json.Step}
      (h : Level siblings path level) : Level siblings (.item index :: path) level
  | child {siblings children level : List Selector} {name : String} {path : List Json.Step}
      (hs : .nested name children ∈ siblings) (h : Level children path level) :
      Level siblings (.key name :: path) level

/-- The path comes to a key that is neither named at its level nor covered by a wildcard there. -/
def Hidden (siblings : List Selector) (path : List Json.Step) : Prop :=
  ∃ before name after level, path = before ++ .key name :: after ∧ Level siblings before level ∧
    name ∉ fieldNames level ∧ wildcard ∉ level

/-- The path comes to the key of a leaf, or to a key that only a wildcard selects. -/
def Whole (siblings : List Selector) (path : List Json.Step) : Prop :=
  ∃ before name after level, path = before ++ .key name :: after ∧ Level siblings before level ∧
    (leaf name ∈ level ∨ (name ∉ fieldNames level ∧ wildcard ∈ level))

/-- The path ends at a key that the mask names and that an object of the value lacks. -/
def Lacking (siblings : List Selector) (v : Json) (path : List Json.Step) : Prop :=
  ∃ before name level members, path = before ++ [.key name] ∧ Level siblings before level ∧
    name ∈ fieldNames level ∧ v.follow? before = some (.obj members) ∧ members.lookup name = none

end Selector

/-- No siblings of the mask, at any level, name a field twice. -/
def Mask.NamesOnce (m : Mask) : Prop :=
  (Selector.fieldNames m.selectors).Nodup ∧ Selector.NamesOnceEach m.selectors

namespace Selector

variable {skipMissing : Bool} {siblings level : List Selector} {s : Selector} {name key : String}
  {path : List Json.Step} {v w : Json} {x y : Option Json} {place : Pointer}

theorem namesOnceEach_iff : NamesOnceEach siblings ↔ ∀ s ∈ siblings, s.NamesOnce := by
  induction siblings with
  | nil => simp [NamesOnceEach]
  | cons s rest ih => simp [NamesOnceEach, ih]

theorem mem_fieldNames : key ∈ fieldNames siblings ↔ ∃ s ∈ siblings, s.selects key = true := by
  simp only [fieldNames, names, List.mem_map, List.mem_filter, selects, Bool.and_eq_true,
    beq_iff_eq, and_assoc]

theorem deciding?_eq_none (h : key ∉ fieldNames siblings) : deciding? key siblings = none := by
  refine deciding?_eq_none_iff.2 fun s hs hk => h ?_
  exact mem_fieldNames.2 ⟨s, hs, hk⟩

/-- Where no name is repeated, a selector decides on the key that it names. -/
theorem deciding?_of_mem (hn : (fieldNames siblings).Nodup) (hs : s ∈ siblings)
    (hk : s.selects key = true) : deciding? key siblings = some s := by
  have hfield {t : Selector} (ht : t ∈ siblings) (hk : t.selects key = true) :
      t ∈ siblings.filter fun s => !s.isWildcard := by
    rw [selects, Bool.and_eq_true] at hk
    exact List.mem_filter.2 ⟨ht, hk.1⟩
  obtain ⟨t, ht⟩ := exists_deciding? hs hk
  obtain ⟨hmem, hkt⟩ := mem_of_deciding? ht
  have hname : t.name = s.name := (selects_iff.1 hkt).2.trans (selects_iff.1 hk).2.symm
  rw [ht, List.inj_on_of_nodup_map hn (hfield hmem hkt) (hfield hs hk) hname]

/-- Where no name is repeated, each selector leaves its part of the member that it names. -/
theorem memberFrom_of_mem (hn : (fieldNames siblings).Nodup) (hs : s ∈ siblings)
    (hw : s ≠ .wildcard) {data out : Members}
    (h : filter siblings skipMissing place data = .ok out) :
    s.memberFrom skipMissing place (data.lookup s.name) = .ok (out.lookup s.name) :=
  memberFrom_of_deciding? h (deciding?_of_mem hn hs (selects_iff.2 ⟨hw, rfl⟩))

/-! ## What is met on both sides -/

/--
What a path comes to in a value and in what a mask leaves of it: the siblings there make the one of
the other, or nothing lies further on along any path.
-/
def Meets (skipMissing : Bool) (level : List Selector) (x y : Option Json) : Prop :=
  (∃ v w place, x = some v ∧ y = some w ∧ v.mapObjects (filter level skipMissing) place = .ok w) ∨
    ((x = none ∨ x = some .null) ∧ (y = none ∨ y = some .null))

/-- Two objects are met, of which siblings make the one of the other, or no object on any side. -/
theorem Meets.objects (h : Meets skipMissing level x y) :
    (∃ members out place, x = some (.obj members) ∧ y = some (.obj out) ∧
        filter level skipMissing place members = .ok out) ∨
      ((∀ members, x ≠ some (.obj members)) ∧ ∀ members, y ≠ some (.obj members)) := by
  rcases h with ⟨v, w, place, rfl, rfl, h⟩ | ⟨hx, hy⟩
  · rcases Json.mapObjects_cases h with ⟨items, outs, rfl, rfl, -⟩ | ⟨ms, out, rfl, rfl, hf⟩
    · exact .inr ⟨nofun, nofun⟩
    · exact .inl ⟨ms, out, place, rfl, rfl, hf⟩
  · refine .inr ⟨?_, ?_⟩
    · rcases hx with rfl | rfl <;> exact nofun
    · rcases hy with rfl | rfl <;> exact nofun

theorem Meets.arr (h : Meets skipMissing level x y) {items : List Json}
    (hx : x = some (.arr items)) :
    ∃ outs, y = some (.arr outs) ∧ outs.length = items.length := by
  rcases h with ⟨v, w, place, rfl, rfl, h⟩ | ⟨hnone, -⟩
  · obtain rfl := Option.some.inj hx
    rcases Json.mapObjects_cases h with ⟨items, outs, hitems, rfl, h⟩ | ⟨ms, out, hobj, -⟩
    · obtain rfl := Json.arr.inj hitems
      exact ⟨outs, rfl, Json.length_mapObjectsFrom h⟩
    · cases hobj
  · subst hx
    rcases hnone with h | h <;> cases h

/-- Where nothing is met on both sides, nothing is met further on. -/
theorem meets_bind (hx : x = none ∨ x = some .null) (hy : y = none ∨ y = some .null) :
    Meets skipMissing level (x.bind (·.follow? path)) (y.bind (·.follow? path)) := by
  have hend {x : Option Json} (hx : x = none ∨ x = some .null) :
      x.bind (·.follow? path) = none ∨ x.bind (·.follow? path) = some .null := by
    rcases hx with rfl | rfl
    · exact .inl rfl
    · cases path with
      | nil => exact .inr rfl
      | cons step path => cases step <;> exact .inl rfl
  exact .inr ⟨hend hx, hend hy⟩

theorem Level.nodup (hl : Level siblings path level) (hn : (fieldNames siblings).Nodup)
    (he : NamesOnceEach siblings) : (fieldNames level).Nodup := by
  induction hl with
  | root => exact hn
  | item _ ih => exact ih hn he
  | child hs _ ih =>
    obtain ⟨hn, he⟩ := namesOnceEach_iff.1 he _ hs
    exact ih hn he

/-- **At the end of a path, the siblings there make of the value what the mask leaves there.** -/
theorem Level.meets (hl : Level siblings path level) (hn : (fieldNames siblings).Nodup)
    (he : NamesOnceEach siblings) (h : v.mapObjects (filter siblings skipMissing) place = .ok w) :
    Meets skipMissing level (v.follow? path) (w.follow? path) := by
  induction hl generalizing v w place with
  | root => exact .inl ⟨v, w, place, rfl, rfl, h⟩
  | @item siblings level index path hl ih =>
    rw [Json.follow?_cons, Json.follow?_cons]
    rcases Json.mapObjects_cases h with ⟨items, outs, rfl, rfl, hs⟩ | ⟨ms, out, rfl, rfl, -⟩
    · show Meets _ _ (items[index]?.bind _) (outs[index]?.bind _)
      rcases Json.getElem?_mapObjectsFrom hs index with ⟨hi, ho⟩ | ⟨x, y, hi, ho, hxy⟩
      · exact meets_bind (.inl hi) (.inl ho)
      · rw [hi, ho]
        exact ih hn he hxy
    · exact meets_bind (.inl rfl) (.inl rfl)
  | @child siblings children level name path hs hl ih =>
    rw [Json.follow?_cons, Json.follow?_cons]
    rcases Json.mapObjects_cases h with ⟨items, outs, rfl, rfl, -⟩ | ⟨ms, out, rfl, rfl, hf⟩
    · exact meets_bind (.inl rfl) (.inl rfl)
    · show Meets _ _ ((ms.lookup name).bind _) ((out.lookup name).bind _)
      have hkey := memberFrom_of_mem hn hs nofun hf
      rw [Selector.name] at hkey
      cases hv : ms.lookup name with
      | none =>
        rw [hv, memberFrom] at hkey
        rw [← Except.ok.inj hkey]
        exact meets_bind (.inl rfl) (by cases skipMissing <;> simp)
      | some value =>
        rw [hv] at hkey
        obtain ⟨u, hu, hout⟩ := memberFrom_some_eq_ok.1 hkey
        rw [← hout]
        by_cases hnull : value = .null
        · rw [hnull, selectFrom_null] at hu
          rw [hnull, ← Except.ok.inj hu]
          exact meets_bind (.inr rfl) (.inr rfl)
        · rw [selectFrom_nested hnull] at hu
          obtain ⟨hn, he⟩ := namesOnceEach_iff.1 he _ hs
          exact ih hn he hu

end Selector

namespace Mask

open Selector

variable {mask : Mask} {skipMissing : Bool} {value out : Json} {path : List Json.Step}

theorem follow?_of_hidden (hm : mask.NamesOnce) (h : mask.apply skipMissing value = .ok out)
    (hp : Hidden mask.selectors path) : out.follow? path = none := by
  obtain ⟨before, name, after, level, rfl, hl, hname, hwild⟩ := hp
  rw [Json.follow?_behind]
  rcases (hl.meets hm.1 hm.2 h).objects with ⟨ms, picked, place, hv, hw, hf⟩ | ⟨-, hw⟩
  · rw [hw]
    show (picked.lookup name).bind _ = none
    rw [lookup_of_deciding?_eq_none hf (deciding?_eq_none hname), if_neg hwild]
    rfl
  · rw [Json.next?_key_of_not_obj hw]
    rfl

/-- What a leaf or the wildcard leaves under a key is the member, if the object has it. -/
theorem lookup_of_whole {level : List Selector} {place : Pointer} {ms picked : Members}
    {name : String} (hn : (fieldNames level).Nodup)
    (hf : filter level skipMissing place ms = .ok picked)
    (hs : leaf name ∈ level ∨ (name ∉ fieldNames level ∧ wildcard ∈ level)) :
    picked.lookup name = ms.lookup name ∨
      name ∈ fieldNames level ∧ ms.lookup name = none ∧ picked.lookup name = some .null := by
  rcases hs with hs | ⟨hname, hwild⟩
  · have hkey := memberFrom_of_mem hn hs nofun hf
    rw [Selector.name] at hkey
    cases hv : ms.lookup name with
    | none =>
      rw [hv] at hkey
      rw [← Except.ok.inj hkey]
      cases skipMissing
      · exact .inr ⟨mem_fieldNames.2 ⟨_, hs, selects_iff.2 ⟨nofun, rfl⟩⟩, rfl, rfl⟩
      · exact .inl rfl
    | some v =>
      rw [hv] at hkey
      obtain ⟨w, hw, hout⟩ := memberFrom_some_eq_ok.1 hkey
      rw [← hout, ← Except.ok.inj hw]
      exact .inl rfl
  · rw [lookup_of_deciding?_eq_none hf (deciding?_eq_none hname), if_pos hwild]
    exact .inl rfl

theorem follow?_of_whole (hm : mask.NamesOnce) (h : mask.apply skipMissing value = .ok out)
    (hp : Whole mask.selectors path) (hlack : ¬Lacking mask.selectors value path) :
    out.follow? path = value.follow? path := by
  obtain ⟨before, name, after, level, rfl, hl, hs⟩ := hp
  rw [Json.follow?_behind, Json.follow?_behind]
  rcases (hl.meets hm.1 hm.2 h).objects with ⟨ms, picked, place, hv, hw, hf⟩ | ⟨hv, hw⟩
  · rw [hv, hw]
    show (picked.lookup name).bind _ = (ms.lookup name).bind _
    rcases lookup_of_whole (hl.nodup hm.1 hm.2) hf hs with hkey | ⟨hname, hnone, hkey⟩
    · rw [hkey]
    · -- the null that stands for the missing member has nothing below it
      rw [hkey, hnone]
      cases after with
      | nil => exact absurd ⟨before, name, level, ms, rfl, hl, hname, hv, hnone⟩ hlack
      | cons step after => cases step <;> rfl
  · rw [Json.next?_key_of_not_obj hv, Json.next?_key_of_not_obj hw]

theorem follow?_of_lacking (hm : mask.NamesOnce) (h : mask.apply skipMissing value = .ok out)
    (hp : Lacking mask.selectors value path) :
    out.follow? path = if skipMissing then none else some .null := by
  obtain ⟨before, name, level, members, rfl, hl, hname, hv, hnone⟩ := hp
  rw [Json.follow?_behind]
  rcases (hl.meets hm.1 hm.2 h).objects with ⟨ms, picked, place, hv', hw, hf⟩ | ⟨hv', -⟩
  · obtain rfl := Json.obj.inj (Option.some.inj (hv.symm.trans hv'))
    obtain ⟨s, hs, hk⟩ := mem_fieldNames.1 hname
    obtain ⟨hwild, rfl⟩ := selects_iff.1 hk
    have hkey := memberFrom_of_mem (hl.nodup hm.1 hm.2) hs hwild hf
    rw [hnone, memberFrom] at hkey
    rw [hw, Except.ok.inj hkey]
    show (picked.lookup s.name).bind _ = _
    cases picked.lookup s.name <;> rfl
  · exact absurd hv (hv' members)

/--
**What a mask selects at every path** of keys and items. There is nothing at a hidden path. At a
whole one there is what the value has there, but for the null of a missing member. Where the mask
names a member that an object of the value lacks, there is null, or nothing if missing members are
skipped. Arrays that selection goes on below keep all of their items.
-/
theorem follow?_apply (hm : mask.NamesOnce) (h : mask.apply skipMissing value = .ok out)
    (path : List Json.Step) :
    (Hidden mask.selectors path → out.follow? path = none) ∧
      (Whole mask.selectors path → ¬Lacking mask.selectors value path →
        out.follow? path = value.follow? path) ∧
      (Lacking mask.selectors value path →
        out.follow? path = if skipMissing then none else some .null) ∧
      ∀ level items, Level mask.selectors path level → value.follow? path = some (.arr items) →
        ∃ picked, out.follow? path = some (.arr picked) ∧ picked.length = items.length := by
  refine ⟨follow?_of_hidden hm h, follow?_of_whole hm h, follow?_of_lacking hm h, ?_⟩
  intro level items hl hitems
  exact (hl.meets hm.1 hm.2 h).arr hitems

/-- Below the items of an array a key is hidden, one is missing and one is kept with its value. -/
theorem follow?_apply_items :
    let mask : Mask := ⟨[.nested "a" [.leaf "b", .nested "c" [.wildcard]], .wildcard, .leaf "d"]⟩
    let value : Json := .obj [("e", .str "1"), ("a", .arr [
      .obj [("z", .str "2"), ("b", .obj [("k", .str "3")])], .obj []])]
    let out : Json := .obj [("a", .arr [.obj [("b", .obj [("k", .str "3")]), ("c", .null)],
      .obj [("b", .null), ("c", .null)]]), ("d", .null), ("e", .str "1")]
    let item (index : Nat) (keys : List String) : List Json.Step :=
      .key "a" :: .item index :: keys.map .key
    mask.NamesOnce ∧ mask.apply false value = .ok out ∧
      out.follow? (item 0 ["z"]) = none ∧
      out.follow? (item 0 ["b", "k"]) = value.follow? (item 0 ["b", "k"]) ∧
      out.follow? (item 1 ["b"]) = some .null ∧
      ∃ picked, out.follow? [.key "a"] = some (.arr picked) ∧ picked.length = 2 := by
  intro mask value out item
  have hm : mask.NamesOnce := by
    simp [mask, NamesOnce, NamesOnceEach, Selector.NamesOnce, fieldNames, names, isWildcard, name]
  have h : mask.apply false value = .ok out := by decide +kernel
  have hlevel (index : Nat) : Level mask.selectors [.key "a", .item index]
      [.leaf "b", .nested "c" [.wildcard]] := .child List.mem_cons_self (.item .root)
  have hnamed : "b" ∈ fieldNames [.leaf "b", .nested "c" [.wildcard]] := List.mem_cons_self
  have hkept : ¬Lacking mask.selectors value (item 0 ["b", "k"]) := by
    rintro ⟨before, name, level, members, hpath, -, -, hv, hnone⟩
    have hfollow : value.follow? (item 0 ["b", "k"]) = none := by
      rw [hpath, Json.follow?_behind, hv]
      show (members.lookup name).bind _ = none
      rw [hnone]
      rfl
    cases hfollow
  refine ⟨hm, h, ?_, ?_, ?_, ?_⟩
  · refine (follow?_apply hm h _).1 ⟨_, "z", [], _, rfl, hlevel 0, by decide, ?_⟩
    simp
  · refine (follow?_apply hm h _).2.1 ⟨_, "b", [.key "k"], _, rfl, hlevel 0, .inl ?_⟩ hkept
    exact List.mem_cons_self
  · exact (follow?_apply hm h _).2.2.1 ⟨_, "b", _, [], rfl, hlevel 1, hnamed, rfl, rfl⟩
  · exact (follow?_apply hm h _).2.2.2 _ _ (.child List.mem_cons_self .root) rfl

end Mask

end FieldMask
