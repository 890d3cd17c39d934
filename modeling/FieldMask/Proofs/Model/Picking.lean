import FieldMask.Proofs.Mask.Paths
import FieldMask.Proofs.Model.Masked

/-!
# Picking fields and members side by side

A mask picks fields of a flat model the way it picks members of an object. If an object has a member
for each of the fields, the same names are picked on both sides, in the same order, the wildcard
included. So if what is left of each field has some relation to what is left of its member, the
fields that are picked have it to the members that are picked (`related_of_filter`).
-/

namespace FieldMask

/-- The selector that the function makes of another one goes by the same name among its siblings. -/
structure Selector.KeepsName (g : Selector → Selector) : Prop where
  wildcard_iff : ∀ s, g s = .wildcard ↔ s = .wildcard
  name_eq : ∀ s, (g s).name = s.name

namespace Registry

variable {r : Registry} {selection : List Selector} {g : Selector → Selector} {p q : Pointer}
  {flat : FlatModel} {full values : Members} {picked : Fields}
  {T R : String → Field → Json → Prop}

/-- What the one selector leaves of a field is related to what the other leaves of its member. -/
def Follows (r : Registry) (T R : String → Field → Json → Prop) (p q : Pointer) (fields : Fields)
    (s t : Selector) : Prop :=
  ∀ field value field' value', (s.name, field) ∈ fields → T s.name field value →
    r.selectFrom true p field s = .ok field' → t.selectFrom true q value = .ok value' →
      R s.name field' value'

theorem picked_related (hg : Selector.KeepsName g) (hfull : Keyed.Related T flat.fields full)
    (hsel : ∀ s ∈ selection, r.Follows T R p q flat.fields s (g s))
    (hp : r.pickFields true p flat [] selection = .ok picked)
    (hq : Selector.pickAll true q full [] (selection.map g) = .ok values) :
    Keyed.Related R picked values := by
  rw [pickFields_eq_foldlM] at hp
  rw [Selector.pickAll_eq_foldlM, List.foldlM_map] at hq
  refine foldlM_induct₂ (fun picked values s hs picked' values' h hp hq => ?_) .nil hp hq
  by_cases hw : s = .wildcard
  · subst hw
    rw [pickField_wildcard] at hp
    rw [(hg.wildcard_iff _).2 rfl, Selector.pick_wildcard] at hq
    rw [← Except.ok.inj hp, ← Except.ok.inj hq]
    exact h
  · rw [pickField_eq hw] at hp
    rw [Selector.pick_eq (fun h => hw ((hg.wildcard_iff s).1 h)), hg.name_eq] at hq
    rcases hfull.lookup s.name with ⟨hf, hv⟩ | ⟨field, value, hf, hv, hout⟩
    · rw [FlatModel.find?, hf] at hp
      rw [hv] at hq
      rw [← Except.ok.inj hp, ← Except.ok.inj hq]
      exact h
    · rw [FlatModel.find?, hf] at hp
      rw [hv] at hq
      obtain ⟨field', hf', hp⟩ := bind_eq_ok.1 hp
      obtain ⟨value', hv', hq⟩ := bind_eq_ok.1 hq
      rw [← pure_eq_ok.1 hp, ← pure_eq_ok.1 hq]
      exact h.put (hsel s hs field value field' value' (Keyed.mem_of_lookup hf) hout hf' hv')

/-- The picked fields of a flat model are those that selectors other than the wildcard name. -/
theorem mem_keys_pickFields {start : Fields}
    (hp : r.pickFields true p flat start selection = .ok picked) {key : String}
    (hk : key ∈ Keyed.keys flat.fields) :
    key ∈ Keyed.keys picked ↔
      key ∈ Keyed.keys start ∨ ∃ s ∈ selection, s ≠ .wildcard ∧ s.name = key := by
  induction selection generalizing start with
  | nil =>
    rw [pickFields] at hp
    rw [← Except.ok.inj hp]
    simp
  | cons s rest ih =>
    rw [pickFields] at hp
    obtain ⟨next, hs, hp⟩ := bind_eq_ok.1 hp
    rw [ih hp]
    by_cases hw : s = .wildcard
    · subst hw
      rw [pickField_wildcard] at hs
      rw [← Except.ok.inj hs]
      simp
    · have hnext : key ∈ Keyed.keys next ↔ key = s.name ∨ key ∈ Keyed.keys start := by
        rw [pickField_eq hw] at hs
        cases hf : flat.find? s.name with
        | none =>
          rw [hf] at hs
          rw [← Except.ok.inj hs]
          have hne : key ≠ s.name := fun h => Keyed.lookup_eq_none_iff.1 hf (h ▸ hk)
          simp [hne]
        | some field =>
          rw [hf] at hs
          obtain ⟨narrowed, -, hs⟩ := bind_eq_ok.1 hs
          rw [← pure_eq_ok.1 hs, Keyed.mem_keys_put]
      rw [hnext]
      simp only [List.exists_mem_cons_iff, ne_eq, hw, not_false_eq_true, true_and, eq_comm]
      tauto

theorem contains_named {key : String} :
    ((selection.filter fun s => !s.isWildcard).map Selector.name).contains key = true ↔
      ∃ s ∈ selection, s ≠ .wildcard ∧ s.name = key := by
  simp only [List.contains_iff_mem, List.mem_map, List.mem_filter, Bool.not_eq_true',
    ← Bool.not_eq_true, Selector.isWildcard_iff, ne_eq, and_assoc]

theorem any_isWildcard_map (hg : Selector.KeepsName g) :
    (selection.map g).any Selector.isWildcard = selection.any Selector.isWildcard := by
  rw [List.any_map]
  congr 1
  funext s
  rw [Function.comp, Bool.eq_iff_iff, Selector.isWildcard_iff, Selector.isWildcard_iff,
    hg.wildcard_iff]

/-- The fields that no selector names, which the wildcard adds. -/
def unnamed (selection : List Selector) (fields : Fields) : Fields :=
  fields.filter fun f => !(Selector.fieldNames selection).contains f.1

theorem addRest_eq_putAll :
    addRest selection flat picked =
      if selection.any Selector.isWildcard then Keyed.putAll picked (unnamed selection flat.fields)
      else picked := rfl

/-- A field is left for the wildcard just if it is not picked yet. -/
theorem unnamed_iff (hp : r.pickFields true p flat [] selection = .ok picked) {e : String × Field}
    (he : e ∈ flat.fields) :
    (!(Selector.fieldNames selection).contains e.1) = true ↔ e.1 ∉ Keyed.keys picked := by
  rw [mem_keys_pickFields hp (Keyed.mem_keys_of_mem he), ← contains_named]
  simp [Selector.fieldNames, Selector.names]

/-- The fields that the wildcard adds go to the end. -/
theorem addRest_eq_append (hn : (Keyed.keys flat.fields).Nodup)
    (hp : r.pickFields true p flat [] selection = .ok picked) :
    addRest selection flat picked =
      if selection.any Selector.isWildcard then picked ++ unnamed selection flat.fields
      else picked := by
  rw [addRest_eq_putAll, Keyed.putAll_eq_append]
  rw [Keyed.keys_append]
  refine List.nodup_append.2 ⟨(picked_pickFields hp).1, hn.sublist (List.filter_sublist.map _), ?_⟩
  rintro key hk _ hk' rfl
  obtain ⟨e, he, rfl⟩ := List.mem_map.1 hk'
  obtain ⟨he, hunnamed⟩ := List.mem_filter.1 he
  exact (unnamed_iff hp he).1 hunnamed hk

/-- The wildcard adds the same fields and members on both sides. -/
theorem addRest_related (hg : Selector.KeepsName g) (hn : (Keyed.keys flat.fields).Nodup)
    (hfull : Keyed.Related T flat.fields full)
    (hrest : ∀ key field value, T key field value → R key field value)
    (hp : r.pickFields true p flat [] selection = .ok picked)
    (h : Keyed.Related R picked values) :
    Keyed.Related R (addRest selection flat picked)
      (Selector.addRest (selection.map g) full values) := by
  rw [addRest_eq_append hn hp, Selector.addRest, any_isWildcard_map hg]
  split
  · refine h.append ?_
    have hmem := (List.forall₂_and_left _ _).2 ⟨fun e he => he, hfull⟩
    refine List.Forall₂.imp ?_ (List.rel_filter ?_ hmem)
    · rintro e m ⟨-, hkey, hout⟩
      exact ⟨hkey, hrest _ _ _ hout⟩
    · rintro e m ⟨he, hkey, -⟩
      have hpicked : (!Keyed.contains values m.1) = true ↔ e.1 ∉ Keyed.keys picked := by
        rw [h.keys_eq, hkey, ← Keyed.contains_iff]
        simp
      exact (unnamed_iff hp he).trans hpicked.symm
  · exact h

/-- **The fields that a mask selects are related to the members that it selects.** -/
theorem related_of_filter {masked : Model} (hg : Selector.KeepsName g)
    (hn : (Keyed.keys flat.fields).Nodup) (hfull : Keyed.Related T flat.fields full)
    (hrest : ∀ key field value, T key field value → R key field value)
    (hsel : ∀ s ∈ selection, r.Follows T R p q flat.fields s (g s))
    (hm : r.maskFlat true selection p flat = .ok masked)
    (hps : Selector.filter (selection.map g) true q full = .ok values) :
    Keyed.Related R masked.fields values := by
  obtain ⟨picked, hp, rfl⟩ := maskFlat_eq_ok.1 hm
  obtain ⟨members, hq, rfl⟩ := Selector.filter_eq_ok.1 hps
  exact addRest_related hg hn hfull hrest hp (picked_related hg hfull hsel hp hq)

end Registry

end FieldMask
