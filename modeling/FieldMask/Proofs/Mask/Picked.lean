import FieldMask.Proofs.Mask.Selection

/-!
# What is picked under a key

Of the selectors that name a key, the last one decides on what comes out under it, and the wildcard
only on keys that none of them names. `lookup_filter` says so of every key of an object; siblings
are refused just if one of them cannot be followed into the member that it names
(`exists_pickAll_iff`).
-/

namespace FieldMask

namespace Selector

/-- Whether the selector names the member under a key. -/
def selects (s : Selector) (key : String) : Bool := !s.isWildcard && s.name == key

/-- The selector that decides on a key: the last one among the siblings that names it. -/
def deciding? (key : String) : List Selector → Option Selector
  | [] => none
  | s :: rest => (deciding? key rest).or (if s.selects key then some s else none)

/-- What a selector leaves of the member that it names, which the object may lack. -/
def memberFrom (skipMissing : Bool) (place : Pointer) (s : Selector) :
    Option Json → Except Inconsistency (Option Json)
  | none => .ok (if skipMissing then none else some .null)
  | some value => do return some (← s.selectFrom skipMissing place value)

variable {skipMissing : Bool} {place : Pointer} {data picked out : Members}
  {siblings : List Selector} {s : Selector} {key : String}

/-! ## Deciding selectors -/

theorem selects_iff : s.selects key = true ↔ s ≠ .wildcard ∧ s.name = key := by
  cases s <;> simp [selects, isWildcard]

theorem any_isWildcard : siblings.any isWildcard = true ↔ wildcard ∈ siblings := by
  simp

theorem deciding?_eq_none_iff : deciding? key siblings = none ↔ ∀ s ∈ siblings, ¬s.selects key := by
  induction siblings with
  | nil => simp [deciding?]
  | cons s rest ih =>
    rw [deciding?, Option.or_eq_none_iff, ih, List.forall_mem_cons, and_comm]
    by_cases hs : s.selects key = true <;> simp [hs]

theorem mem_of_deciding? (h : deciding? key siblings = some s) :
    s ∈ siblings ∧ s.selects key = true := by
  induction siblings with
  | nil => cases h
  | cons t rest ih =>
    rw [deciding?, Option.or_eq_some_iff] at h
    rcases h with h | ⟨-, h⟩
    · exact ⟨List.mem_cons_of_mem _ (ih h).1, (ih h).2⟩
    · split at h
      · rename_i ht
        obtain rfl := Option.some.inj h
        exact ⟨List.mem_cons_self, ht⟩
      · cases h

/-- A selector that names a key leaves it to some selector to decide on it. -/
theorem exists_deciding? (hs : s ∈ siblings) (hk : s.selects key = true) :
    ∃ t, deciding? key siblings = some t := by
  rw [← Option.ne_none_iff_exists', ne_eq, deciding?_eq_none_iff]
  exact fun h => h s hs hk

/-! ## Picking -/

theorem selectFrom_null : s.selectFrom skipMissing place .null = .ok .null := by
  cases s <;> rfl

theorem memberFrom_some_eq_ok {value : Json} {m : Option Json} :
    s.memberFrom skipMissing place (some value) = .ok m ↔
      ∃ w, s.selectFrom skipMissing place value = .ok w ∧ some w = m := by
  simp [memberFrom]

/-- A selector puts what it leaves of its member, if anything, under its name. -/
theorem pick_eq_memberFrom (hs : s ≠ .wildcard) :
    s.pick skipMissing place data picked = do
      match ← s.memberFrom skipMissing place (data.lookup s.name) with
      | none => return picked
      | some w => return Keyed.put s.name w picked := by
  rw [pick_eq hs]
  cases data.lookup s.name with
  | none => cases skipMissing <;> rfl
  | some value =>
    rw [memberFrom, bind_assoc]
    rfl

theorem lookup_pick (h : s.pick skipMissing place data picked = .ok out) (key : String) :
    if s.selects key then
      ∃ m, s.memberFrom skipMissing place (data.lookup key) = .ok m ∧
        out.lookup key = m.or (picked.lookup key)
    else out.lookup key = picked.lookup key := by
  by_cases hw : s = .wildcard
  · subst hw
    rw [pick_wildcard] at h
    rw [if_neg (by simp [selects, isWildcard]), ← Except.ok.inj h]
  · rw [pick_eq_memberFrom hw] at h
    obtain ⟨m, hm, h⟩ := bind_eq_ok.1 h
    have hk : s.selects key = true ↔ s.name = key := selects_iff.trans (and_iff_right hw)
    have hout : out.lookup key = if s.name = key then m.or (picked.lookup key) else
        picked.lookup key := by
      cases m with
      | none =>
        rw [← pure_eq_ok.1 h, Option.none_or, ite_self]
      | some w =>
        rw [← pure_eq_ok.1 h, Keyed.lookup_put, Option.some_or]
        simp only [eq_comm]
    by_cases hname : s.name = key
    · rw [if_pos (hk.2 hname)]
      rw [if_pos hname] at hout
      exact ⟨m, hname ▸ hm, hout⟩
    · rw [if_neg (fun h => hname (hk.1 h))]
      rwa [if_neg hname] at hout

/-- What stands under a key once all siblings have picked is what the deciding one leaves there. -/
theorem lookup_pickAll (h : pickAll skipMissing place data picked siblings = .ok out)
    (key : String) :
    match deciding? key siblings with
    | none => out.lookup key = picked.lookup key
    | some s => ∃ m, s.memberFrom skipMissing place (data.lookup key) = .ok m ∧
        out.lookup key = m.or (picked.lookup key) := by
  induction siblings generalizing picked with
  | nil =>
    rw [pickAll] at h
    rw [← Except.ok.inj h]
    rfl
  | cons s rest ih =>
    rw [pickAll] at h
    obtain ⟨next, hs, h⟩ := bind_eq_ok.1 h
    have hs := lookup_pick hs key
    have hrest := ih h
    rw [deciding?]
    cases hd : deciding? key rest with
    | none =>
      rw [hd] at hrest
      by_cases hk : s.selects key = true
      · rw [if_pos hk] at hs ⊢
        obtain ⟨m, hm, hnext⟩ := hs
        exact ⟨m, hm, hrest.trans hnext⟩
      · rw [if_neg hk] at hs ⊢
        exact hrest.trans hs
    | some t =>
      rw [hd] at hrest
      obtain ⟨m, hm, hout⟩ := hrest
      refine ⟨m, hm, hout.trans ?_⟩
      by_cases hk : s.selects key = true
      · rw [if_pos hk] at hs
        obtain ⟨m', hm', hnext⟩ := hs
        rw [hnext]
        -- both selectors name the key, so the object lacks it for both or for neither
        cases hv : data.lookup key with
        | none =>
          rw [hv] at hm hm'
          rw [← Except.ok.inj hm, ← Except.ok.inj hm']
          cases skipMissing <;> rfl
        | some value =>
          rw [hv] at hm
          obtain ⟨w, -, rfl⟩ := memberFrom_some_eq_ok.1 hm
          rfl
      · rw [if_neg hk] at hs
        rw [hs]

theorem lookup_addRest :
    (addRest siblings data picked).lookup key =
      (picked.lookup key).or (if wildcard ∈ siblings then data.lookup key else none) := by
  unfold addRest
  by_cases hw : wildcard ∈ siblings
  · rw [if_pos (any_isWildcard.2 hw), if_pos hw, List.lookup_append,
      Keyed.lookup_filter (p := fun key => !Keyed.contains picked key), Keyed.contains]
    cases picked.lookup key <;> rfl
  · rw [if_neg (fun h => hw (any_isWildcard.1 h)), if_neg hw, Option.or_none]

/--
**What stands under a key** is what the deciding selector leaves of the member there. Where no
selector decides, it is the member itself with the wildcard, and nothing without it.
-/
theorem lookup_filter (h : filter siblings skipMissing place data = .ok out) (key : String) :
    match deciding? key siblings with
    | none => out.lookup key = if wildcard ∈ siblings then data.lookup key else none
    | some s => s.memberFrom skipMissing place (data.lookup key) = .ok (out.lookup key) := by
  obtain ⟨picked, hp, rfl⟩ := filter_eq_ok.1 h
  have hpicked := lookup_pickAll hp key
  rw [lookup_addRest]
  cases hd : deciding? key siblings with
  | none =>
    rw [hd] at hpicked
    rw [hpicked]
    rfl
  | some s =>
    rw [hd] at hpicked
    obtain ⟨m, hm, hout⟩ := hpicked
    show s.memberFrom skipMissing place (data.lookup key) = .ok _
    rw [hout, List.lookup_nil, Option.or_none]
    cases hv : data.lookup key with
    | none =>
      rw [hv] at hm
      rw [hm, ite_self, Option.or_none]
    | some value =>
      rw [hv] at hm
      obtain ⟨w, hw, rfl⟩ := memberFrom_some_eq_ok.1 hm
      exact hm

theorem memberFrom_of_deciding? (h : filter siblings skipMissing place data = .ok out)
    (hd : deciding? key siblings = some s) :
    s.memberFrom skipMissing place (data.lookup key) = .ok (out.lookup key) := by
  have hkey := lookup_filter h key
  rwa [hd] at hkey

theorem lookup_of_deciding?_eq_none (h : filter siblings skipMissing place data = .ok out)
    (hd : deciding? key siblings = none) :
    out.lookup key = if wildcard ∈ siblings then data.lookup key else none := by
  have hkey := lookup_filter h key
  rwa [hd] at hkey

/-! ## Refusals -/

/-- Siblings pick something just if each of them leaves something of the member that it names. -/
theorem exists_pickAll_iff :
    (∃ out, pickAll skipMissing place data picked siblings = .ok out) ↔
      ∀ s ∈ siblings, s ≠ .wildcard →
        ∃ m, s.memberFrom skipMissing place (data.lookup s.name) = .ok m := by
  induction siblings generalizing picked with
  | nil => simp [pickAll]
  | cons s rest ih =>
    rw [pickAll, List.forall_mem_cons]
    constructor
    · rintro ⟨out, h⟩
      obtain ⟨next, hs, h⟩ := bind_eq_ok.1 h
      refine ⟨fun hw => ?_, ih.1 ⟨out, h⟩⟩
      rw [pick_eq_memberFrom hw] at hs
      obtain ⟨m, hm, -⟩ := bind_eq_ok.1 hs
      exact ⟨m, hm⟩
    · rintro ⟨hs, hrest⟩
      by_cases hw : s = .wildcard
      · subst hw
        rw [pick_wildcard, bind_ok]
        exact ih.2 hrest
      · obtain ⟨m, hm⟩ := hs hw
        rw [pick_eq_memberFrom hw, hm, bind_ok]
        cases m with
        | none => exact ih.2 hrest
        | some w => exact ih.2 hrest

theorem exists_filter_iff :
    (∃ out, filter siblings skipMissing place data = .ok out) ↔
      ∀ s ∈ siblings, s ≠ .wildcard →
        ∃ m, s.memberFrom skipMissing place (data.lookup s.name) = .ok m := by
  constructor
  · rintro ⟨out, h⟩
    obtain ⟨picked, hp, -⟩ := filter_eq_ok.1 h
    exact exists_pickAll_iff.1 ⟨picked, hp⟩
  · intro h
    obtain ⟨picked, hp⟩ := exists_pickAll_iff.2 h
    exact ⟨_, filter_eq_ok.2 ⟨picked, hp, rfl⟩⟩

end Selector

end FieldMask
