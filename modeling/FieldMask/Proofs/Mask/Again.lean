import FieldMask.Proofs.Mask.Picked

/-!
# Applying a mask again

What a mask leaves of a value holds nothing more for it to take away: applied to it again, the mask
neither fails nor changes anything, the order of members included (`apply_idempotent`). Siblings may
repeat a name here. An earlier one then meets what a later one has left under it, so first it takes
that siblings can be followed into whatever any others leave (`exists_filter_again`).
-/

namespace FieldMask

/-! ## Values -/

namespace Json

variable {f g : Pointer → Members → Except Inconsistency Members}

mutual

/-- What can be followed again in all objects can be followed again in a value. -/
theorem exists_mapObjects_again
    (h : ∀ place ms a b, f place ms = .ok a → g place ms = .ok b → ∃ c, f place b = .ok c) :
    ∀ (v : Json) (place : Pointer) (a b : Json), v.mapObjects f place = .ok a →
      v.mapObjects g place = .ok b → ∃ c, b.mapObjects f place = .ok c
  | .arr items, place, a, b, ha, hb => by
    obtain ⟨as, has, -⟩ := bind_eq_ok.1 ha
    obtain ⟨bs, hbs, hb⟩ := bind_eq_ok.1 hb
    obtain ⟨cs, hcs⟩ := exists_mapObjectsFrom_again h items place 0 as bs has hbs
    rw [← pure_eq_ok.1 hb, mapObjects, hcs]
    exact ⟨_, rfl⟩
  | .obj members, place, a, b, ha, hb => by
    obtain ⟨as, has, -⟩ := bind_eq_ok.1 ha
    obtain ⟨bs, hbs, hb⟩ := bind_eq_ok.1 hb
    obtain ⟨cs, hcs⟩ := h place members as bs has hbs
    rw [← pure_eq_ok.1 hb, mapObjects, hcs]
    exact ⟨_, rfl⟩
  | .null, _, _, _, ha, _ => nomatch ha
  | .bool _, _, _, _, ha, _ => nomatch ha
  | .num _, _, _, _, ha, _ => nomatch ha
  | .str _, _, _, _, ha, _ => nomatch ha

theorem exists_mapObjectsFrom_again
    (h : ∀ place ms a b, f place ms = .ok a → g place ms = .ok b → ∃ c, f place b = .ok c) :
    ∀ (vs : List Json) (place : Pointer) (index : Nat) (as bs : List Json),
      mapObjectsFrom f place index vs = .ok as → mapObjectsFrom g place index vs = .ok bs →
        ∃ cs, mapObjectsFrom f place index bs = .ok cs
  | [], place, index, as, bs, _, hb => by
    rw [← Except.ok.inj hb]
    exact ⟨[], rfl⟩
  | v :: vs, place, index, as, bs, ha, hb => by
    obtain ⟨a, ha₁, ha⟩ := bind_eq_ok.1 ha
    obtain ⟨as', ha₂, -⟩ := bind_eq_ok.1 ha
    obtain ⟨b, hb₁, hb⟩ := bind_eq_ok.1 hb
    obtain ⟨bs', hb₂, hb⟩ := bind_eq_ok.1 hb
    obtain ⟨c, hc⟩ := exists_mapObjects_again h v _ _ _ ha₁ hb₁
    obtain ⟨cs, hcs⟩ := exists_mapObjectsFrom_again h vs _ _ _ _ ha₂ hb₂
    rw [← pure_eq_ok.1 hb, mapObjectsFrom, hc, bind_ok, hcs]
    exact ⟨_, rfl⟩

end

mutual

/-- What stays in all objects stays in a value. -/
theorem mapObjects_again (h : ∀ place ms b, f place ms = .ok b → f place b = .ok b) :
    ∀ (v : Json) (place : Pointer) (w : Json), v.mapObjects f place = .ok w →
      w.mapObjects f place = .ok w
  | .arr items, place, w, hw => by
    obtain ⟨ws, hws, hw⟩ := bind_eq_ok.1 hw
    rw [← pure_eq_ok.1 hw, mapObjects, mapObjectsFrom_again h items _ _ _ hws]
    rfl
  | .obj members, place, w, hw => by
    obtain ⟨ms, hms, hw⟩ := bind_eq_ok.1 hw
    rw [← pure_eq_ok.1 hw, mapObjects, h _ _ _ hms]
    rfl
  | .null, _, _, hw => nomatch hw
  | .bool _, _, _, hw => nomatch hw
  | .num _, _, _, hw => nomatch hw
  | .str _, _, _, hw => nomatch hw

theorem mapObjectsFrom_again (h : ∀ place ms b, f place ms = .ok b → f place b = .ok b) :
    ∀ (vs : List Json) (place : Pointer) (index : Nat) (ws : List Json),
      mapObjectsFrom f place index vs = .ok ws → mapObjectsFrom f place index ws = .ok ws
  | [], place, index, ws, hw => by
    rw [← Except.ok.inj hw]
    rfl
  | v :: vs, place, index, ws, hw => by
    obtain ⟨w, hw₁, hw⟩ := bind_eq_ok.1 hw
    obtain ⟨ws', hw₂, hw⟩ := bind_eq_ok.1 hw
    rw [← pure_eq_ok.1 hw, mapObjectsFrom, mapObjects_again h v _ _ hw₁, bind_ok,
      mapObjectsFrom_again h vs _ _ _ hw₂]
    rfl

end

end Json

namespace Selector

variable {skipMissing : Bool} {place : Pointer} {data out : Members} {siblings : List Selector}
  {s t : Selector}

/-! ## Following again -/

/-- The siblings can be followed into what any others leave of an object. -/
def Lasting (skipMissing : Bool) (siblings : List Selector) : Prop :=
  ∀ (other : List Selector) (place : Pointer) (data a b : Members),
    filter siblings skipMissing place data = .ok a → filter other skipMissing place data = .ok b →
      ∃ c, filter siblings skipMissing place b = .ok c

theorem exists_selectFrom_again {value a b : Json} (hst : s.name = t.name)
    (hs : ∀ name children, s = .nested name children → Lasting skipMissing children)
    (ha : s.selectFrom skipMissing place value = .ok a)
    (hb : t.selectFrom skipMissing place value = .ok b) :
    ∃ c, s.selectFrom skipMissing place b = .ok c := by
  cases s with
  | wildcard => exact ⟨b, rfl⟩
  | leaf name => exact ⟨b, rfl⟩
  | nested name children =>
    by_cases hv : value = .null
    · rw [hv, selectFrom_null] at hb
      rw [← Except.ok.inj hb]
      exact ⟨.null, selectFrom_null⟩
    · by_cases hnull : b = .null
      · rw [hnull]
        exact ⟨.null, selectFrom_null⟩
      · rw [selectFrom_nested hnull]
        cases t with
        | wildcard => exact ⟨a, by rwa [← Except.ok.inj hb, ← selectFrom_nested hv]⟩
        | leaf _ => exact ⟨a, by rwa [← Except.ok.inj hb, ← selectFrom_nested hv]⟩
        | nested name' children' =>
          obtain rfl : name = name' := hst
          rw [selectFrom_nested hv] at ha hb
          exact Json.exists_mapObjects_again (hs name children rfl children') value _ a b ha hb

theorem exists_memberFrom_again {v m n : Option Json} (hst : s.name = t.name)
    (hs : ∀ name children, s = .nested name children → Lasting skipMissing children)
    (hm : s.memberFrom skipMissing place v = .ok m)
    (hn : t.memberFrom skipMissing place v = .ok n) :
    ∃ k, s.memberFrom skipMissing place n = .ok k := by
  cases n with
  | none => exact ⟨_, rfl⟩
  | some b =>
    have hb : ∃ c, s.selectFrom skipMissing place b = .ok c := by
      cases v with
      | none =>
        have hnull : b = .null := by
          cases skipMissing
          · exact (Option.some.inj (Except.ok.inj hn)).symm
          · cases Except.ok.inj hn
        rw [hnull]
        exact ⟨.null, selectFrom_null⟩
      | some value =>
        obtain ⟨a, ha, -⟩ := memberFrom_some_eq_ok.1 hm
        obtain ⟨b', hb, hbb⟩ := memberFrom_some_eq_ok.1 hn
        obtain rfl := Option.some.inj hbb
        exact exists_selectFrom_again hst hs ha hb
    obtain ⟨c, hc⟩ := hb
    exact ⟨some c, memberFrom_some_eq_ok.2 ⟨c, hc, rfl⟩⟩

/-- Siblings that are not refused for an object can be followed into whatever is left of it. -/
theorem exists_filter_again (siblings : List Selector) : Lasting skipMissing siblings := by
  intro other place data a b ha hb
  refine exists_filter_iff.2 fun s hs hw => ?_
  obtain ⟨m, hm⟩ := exists_filter_iff.1 ⟨a, ha⟩ s hs hw
  cases hd : deciding? s.name other with
  | none =>
    rw [lookup_of_deciding?_eq_none hb hd]
    split
    · exact ⟨m, hm⟩
    · exact ⟨_, rfl⟩
  | some t =>
    have hst : s.name = t.name := (selects_iff.1 (mem_of_deciding? hd).2).2.symm
    refine exists_memberFrom_again hst (fun name children hnested => ?_) hm
      (memberFrom_of_deciding? hb hd)
    have := sizeOf_children_lt (hnested ▸ hs)
    exact exists_filter_again children
termination_by sizeOf siblings

/-! ## Nothing changes -/

theorem isSome_of_memberFrom {v m : Option Json} (h : s.memberFrom skipMissing place v = .ok m) :
    m.isSome = (v.isSome || !skipMissing) := by
  cases v with
  | none =>
    rw [← Except.ok.inj h]
    cases skipMissing <;> rfl
  | some value =>
    obtain ⟨w, -, rfl⟩ := memberFrom_some_eq_ok.1 h
    rfl

theorem nodup_keys_pick {picked : Members} (h : s.pick skipMissing place data picked = .ok out)
    (hp : (Keyed.keys picked).Nodup) : (Keyed.keys out).Nodup := by
  by_cases hw : s = .wildcard
  · rw [hw, pick_wildcard] at h
    rwa [← Except.ok.inj h]
  · rw [pick_eq_memberFrom hw] at h
    obtain ⟨m, -, h⟩ := bind_eq_ok.1 h
    cases m with
    | none => rwa [← pure_eq_ok.1 h]
    | some w =>
      rw [← pure_eq_ok.1 h]
      exact Keyed.nodup_keys_put hp

theorem nodup_keys_pickAll {picked : Members}
    (h : pickAll skipMissing place data [] siblings = .ok picked) :
    (Keyed.keys picked).Nodup := by
  rw [pickAll_eq_foldlM] at h
  refine foldlM_induct (P := fun picked => (Keyed.keys picked).Nodup) ?_ ?_ h
  · exact fun _ _ _ _ hp h => nodup_keys_pick h hp
  · exact List.nodup_nil

theorem keys_pick_eq {data' picked picked' next next' : Members} (hw : s ≠ .wildcard)
    (hkeys : Keyed.keys picked = Keyed.keys picked')
    (hd : ((data.lookup s.name).isSome || !skipMissing)
      = ((data'.lookup s.name).isSome || !skipMissing))
    (h : s.pick skipMissing place data picked = .ok next)
    (h' : s.pick skipMissing place data' picked' = .ok next') :
    Keyed.keys next = Keyed.keys next' := by
  rw [pick_eq_memberFrom hw] at h h'
  obtain ⟨m, hm, h⟩ := bind_eq_ok.1 h
  obtain ⟨m', hm', h'⟩ := bind_eq_ok.1 h'
  have hsome : m.isSome = m'.isSome := by
    rw [isSome_of_memberFrom hm, isSome_of_memberFrom hm', hd]
  cases m <;> cases m'
  · rwa [← pure_eq_ok.1 h, ← pure_eq_ok.1 h']
  · cases hsome
  · cases hsome
  · rw [← pure_eq_ok.1 h, ← pure_eq_ok.1 h', Keyed.keys_put, Keyed.keys_put, hkeys]

/-- The same keys are picked again, in the same order. -/
theorem keys_pickAll_again {picked picked' : Members}
    (ho : filter siblings skipMissing place data = .ok out)
    (h : pickAll skipMissing place data [] siblings = .ok picked)
    (h' : pickAll skipMissing place out [] siblings = .ok picked') :
    Keyed.keys picked = Keyed.keys picked' := by
  rw [pickAll_eq_foldlM] at h h'
  refine foldlM_induct₂ (R := fun picked picked' => Keyed.keys picked = Keyed.keys picked')
    (fun picked picked' s hs next next' hkeys hn hn' => ?_) rfl h h'
  by_cases hw : s = .wildcard
  · rw [hw, pick_wildcard] at hn hn'
    rwa [← Except.ok.inj hn, ← Except.ok.inj hn']
  · refine keys_pick_eq hw hkeys ?_ hn hn'
    obtain ⟨t, ht⟩ := exists_deciding? hs (selects_iff.2 ⟨hw, rfl⟩)
    rw [isSome_of_memberFrom (memberFrom_of_deciding? ho ht), Bool.or_assoc, Bool.or_self]

theorem memberFrom_again {v m : Option Json}
    (hs : ∀ name children, s = .nested name children → ∀ place data out,
      filter children skipMissing place data = .ok out →
        filter children skipMissing place out = .ok out)
    (h : s.memberFrom skipMissing place v = .ok m) : s.memberFrom skipMissing place m = .ok m := by
  cases v with
  | none =>
    rw [memberFrom] at h
    rw [← Except.ok.inj h]
    cases skipMissing
    · exact memberFrom_some_eq_ok.2 ⟨.null, selectFrom_null, rfl⟩
    · rfl
  | some value =>
    obtain ⟨w, hw, rfl⟩ := memberFrom_some_eq_ok.1 h
    refine memberFrom_some_eq_ok.2 ⟨w, ?_, rfl⟩
    by_cases hnull : w = .null
    · rw [hnull, selectFrom_null]
    · cases s with
      | wildcard => rfl
      | leaf name => rfl
      | nested name children =>
        have hv : value ≠ .null := by
          rintro rfl
          exact hnull (Except.ok.inj hw).symm
        rw [selectFrom_nested hv] at hw
        rw [selectFrom_nested hnull]
        exact Json.mapObjects_again (hs name children rfl) value _ w hw

/-- The wildcard adds nothing to what it has already been part of. -/
theorem addRest_again {picked : Members} :
    addRest siblings (addRest siblings data picked) picked = addRest siblings data picked := by
  unfold addRest
  split
  · have hpicked : picked.filter (fun m => !Keyed.contains picked m.1) = [] := by
      refine List.filter_eq_nil_iff.2 fun m hm => ?_
      rw [Keyed.contains_iff.2 (Keyed.mem_keys_of_mem hm)]
      exact Bool.false_ne_true
    rw [List.filter_append, hpicked, List.nil_append, List.filter_filter]
    simp only [Bool.and_self]
  · rfl

/-- **What siblings leave of an object they leave as it is.** -/
theorem filter_again (siblings : List Selector) :
    ∀ place data out, filter siblings skipMissing place data = .ok out →
      filter siblings skipMissing place out = .ok out := by
  intro place data out h
  obtain ⟨again, hagain⟩ := exists_filter_again siblings siblings place data out out h h
  obtain ⟨picked, hp, hout⟩ := filter_eq_ok.1 h
  obtain ⟨picked', hp', -⟩ := filter_eq_ok.1 hagain
  have hpicked : picked = picked' := by
    refine Keyed.eq_of_lookup (keys_pickAll_again h hp hp') (nodup_keys_pickAll hp) fun key => ?_
    have hfirst := lookup_pickAll hp key
    have hsecond := lookup_pickAll hp' key
    cases hd : deciding? key siblings with
    | none =>
      rw [hd] at hfirst hsecond
      exact hfirst.trans hsecond.symm
    | some s =>
      rw [hd] at hfirst hsecond
      have hkey := memberFrom_of_deciding? h hd
      obtain ⟨m, hm, hfirst⟩ := hfirst
      obtain ⟨m', hm', hsecond⟩ := hsecond
      obtain rfl : m = out.lookup key := Except.ok.inj (hm.symm.trans hkey)
      have hstays : s.memberFrom skipMissing place (out.lookup key) = .ok (out.lookup key) := by
        refine memberFrom_again (fun name children hnested => ?_) hkey
        have := sizeOf_children_lt (hnested ▸ (mem_of_deciding? hd).1)
        exact filter_again children
      rw [hfirst, hsecond, Except.ok.inj (hstays.symm.trans hm')]
  refine filter_eq_ok.2 ⟨picked, hpicked ▸ hp', ?_⟩
  rw [← hout, addRest_again]
termination_by sizeOf siblings

end Selector

/--
**Applying a mask again changes nothing**: what it leaves of a value it leaves as it is, whether
missing members are skipped or not, and also if siblings repeat a name.
-/
theorem Mask.apply_idempotent {mask : Mask} {skipMissing : Bool} {value out : Json}
    (h : mask.apply skipMissing value = .ok out) : mask.apply skipMissing out = .ok out :=
  Json.mapObjects_again (Selector.filter_again mask.selectors) value .root out h

/-- A name is repeated, a wildcard stands before members that are named, and others are missing. -/
theorem Mask.apply_idempotent_repeated :
    let mask : Mask := ⟨[.wildcard, .nested "a" [.nested "b" [.leaf "c"], .leaf "d"],
      .nested "a" [.nested "b" [.wildcard], .leaf "e"], .leaf "f"]⟩
    let value : Json := .obj [("x", .null), ("f", .bool true), ("a", .arr [
      .obj [("b", .obj [("c", .str "1"), ("g", .str "2")]), ("d", .bool false)], .obj []])]
    let out : Json := .obj [("a", .arr [.obj [("b", .obj [("c", .str "1"), ("g", .str "2")]),
      ("e", .null)], .obj [("b", .null), ("e", .null)]]), ("f", .bool true), ("x", .null)]
    mask.apply false value = .ok out ∧ mask.apply false out = .ok out := by
  intro mask value out
  have h : mask.apply false value = .ok out := by decide +kernel
  exact ⟨h, Mask.apply_idempotent h⟩

end FieldMask
