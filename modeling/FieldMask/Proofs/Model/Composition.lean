import FieldMask.Proofs.Model.Chains
import FieldMask.Proofs.Model.Merging

/-!
# What a model is composed of

The fields of a model are those of its parents, each flattened on its own, merged in order, and then
its own. A merged field takes the place of an earlier one of the same name, and goes to the end if
there is none. `Flattens` says so of registered models without regard to how they are gone through;
with one list for all of them, in which every ancestor is put as often as it is met, a registered
model collects the same (`flattens_iff_collects`).

So flattening does nothing else than to merge, to refuse several discriminators and to give the one
discriminator the name of the model as its default (`resolve_merged`).
-/

namespace FieldMask

/-- Lists of fields merged in order, from nothing. -/
def Fields.mergeAll (lists : List Fields) : Fields := lists.foldl Keyed.putAll []

/-- The fields of a registered model: those of its parents, flattened, and its own, merged. -/
inductive Registry.Flattens (r : Registry) : String → Fields → Prop
  | merge {name : String} {model : Model} {below : List Fields} (hm : r.find? name = some model)
      (h : List.Forall₂ (Registry.Flattens r) model.parents below) :
      Registry.Flattens r name (.mergeAll (below ++ [model.fields]))

namespace Fields

variable {lists : List Fields} {fields : Fields}

theorem mergeAll_concat : mergeAll (lists ++ [fields]) = Keyed.putAll (mergeAll lists) fields :=
  List.foldl_concat ..

theorem mergeAll_eq_ofPairs : mergeAll lists = Keyed.ofPairs lists.flatten := by
  induction lists using List.reverseRecOn with
  | nil => rfl
  | append_singleton lists fields ih =>
    rw [mergeAll_concat, ih, List.flatten_append, List.flatten_singleton, Keyed.ofPairs,
      Keyed.ofPairs, Keyed.putAll_append]

theorem stamp_mergeAll {name : String} :
    Registry.stamp name (mergeAll lists) = mergeAll (lists.map (Registry.stamp name)) := by
  induction lists using List.reverseRecOn with
  | nil => rfl
  | append_singleton lists fields ih =>
    rw [mergeAll_concat, Registry.stamp_putAll, ih, List.map_append, List.map_singleton,
      mergeAll_concat]

end Fields

namespace Registry

variable {r : Registry} {model : Model} {name : String} {path : List String}
  {fields found merged out : Fields} {flat : FlatModel}

/-! ## One list for all -/

/-- If its parents flatten to what they collect, a model flattens to what it collects. -/
theorem merged_parents_iff (h : r.collectAll model = .ok fields)
    (hp : ∀ parent ∈ model.parents, ∀ found, r.Flattens parent found ↔ r.Collects parent found) :
    (∃ below, List.Forall₂ r.Flattens model.parents below ∧
      Fields.mergeAll (below ++ [model.fields]) = merged) ↔ merged = fields := by
  have hmerged {below : List Fields} (hb : List.Forall₂ r.Collects model.parents below) :
      Fields.mergeAll (below ++ [model.fields]) = fields := by
    rw [Fields.mergeAll_eq_ofPairs, List.flatten_append, List.flatten_singleton]
    exact collectAll_eq_ofPairs hb h
  simp only [forall₂_congr_of_mem hp]
  constructor
  · rintro ⟨below, hb, rfl⟩
    exact hmerged hb
  · rintro rfl
    obtain ⟨inherited, hi, -⟩ := collectAll_eq_ok.1 h
    obtain ⟨below, hb⟩ := exists_collects_of_parents hi
    exact ⟨below, hb, hmerged hb⟩

/-- A registered model that is collected on some way flattens to what it collects. -/
theorem flattens_iff_of_collect (h : r.collect path name fields = .ok out) (found : Fields) :
    r.Flattens name found ↔ r.Collects name found := by
  induction path, name, fields using Registry.collect.induct (r := r) generalizing out found with
  | case1 path name fields hr =>
    obtain ⟨-, m, hm, -⟩ := collect_eq_ok.1 h
    cases hr.symm.trans hm
  | case2 path name fields m hr hmem => exact absurd hmem (collect_eq_ok.1 h).1
  | case3 path name fields m hr hnew ih =>
    obtain ⟨-, m', hm, inherited, hi, -⟩ := collect_eq_ok.1 h
    obtain rfl := Option.some.inj (hr.symm.trans hm)
    obtain ⟨own, m', hm', hown⟩ := exists_collects h
    obtain rfl := Option.some.inj (hr.symm.trans hm')
    have hparents : ∀ parent ∈ m.parents, ∀ found,
        r.Flattens parent found ↔ r.Collects parent found := by
      intro parent hmem found
      obtain ⟨acc, next, hc⟩ := exists_step_of_foldlM hi hmem
      exact ih acc parent hc found
    constructor
    · rintro ⟨hm', hb⟩
      obtain rfl := Option.some.inj (hm.symm.trans hm')
      obtain rfl := (merged_parents_iff hown hparents).1 ⟨_, hb, rfl⟩
      exact ⟨m, hm, hown⟩
    · intro hfound
      obtain ⟨below, hb, rfl⟩ := (merged_parents_iff hown hparents).2 (hfound.unique ⟨m, hm, hown⟩)
      exact .merge hm hb

theorem flattens_iff_collects {own : Fields} (h : r.Collects name own) (found : Fields) :
    r.Flattens name found ↔ r.Collects name found := by
  obtain ⟨model, hm, hown⟩ := h
  exact flattens_iff_of_collect ((collect_root hm).2 hown) found

/-- A model collects its parents, flattened and merged, and its own fields. -/
theorem collectAll_merged_iff (h : r.collectAll model = .ok fields) :
    (∃ below, List.Forall₂ r.Flattens model.parents below ∧
      Fields.mergeAll (below ++ [model.fields]) = merged) ↔ merged = fields := by
  refine merged_parents_iff h fun parent hmem found => ?_
  obtain ⟨own, hown⟩ := exists_collects_parent h hmem
  exact flattens_iff_collects hown found

/-! ## Flattening -/

/-- The fields of a registered model on its own, as merged or as its flat model has them. -/
def FlatAs (r : Registry) (name : String) (fields : Fields) : Prop :=
  r.Flattens name fields ∨ ∃ flat, r.resolveName name = .ok flat ∧ flat.fields = fields

/-- What a model has on its own is what it collects, but for defaults of discriminators. -/
theorem FlatAs.stamp_eq (hf : r.FlatAs name fields) (hc : r.Collects name found) {tag : String} :
    stamp tag fields = stamp tag found := by
  rcases hf with hf | ⟨flat, hflat, rfl⟩
  · rw [((flattens_iff_collects hc fields).1 hf).unique hc]
  · obtain ⟨model, hm, ha⟩ := hc
    rw [resolveName, lookup_eq_ok.2 hm] at hflat
    obtain ⟨fields, ha', -, rfl⟩ := resolve_eq_ok.1 hflat
    obtain rfl := Except.ok.inj (ha.symm.trans ha')
    exact stamp_stamp

/--
What the parents of a model have on their own, and then its own fields, merge to what it collects,
but for defaults of discriminators.
-/
theorem stamp_merged (h : r.collectAll model = .ok fields) {below : List Fields}
    (hb : List.Forall₂ r.FlatAs model.parents below) (tag : String) :
    stamp tag (.mergeAll (below ++ [model.fields])) = stamp tag fields := by
  obtain ⟨below', hb', rfl⟩ := (collectAll_merged_iff h).2 rfl
  have hbelow : below.map (stamp tag) = below'.map (stamp tag) := by
    refine map_eq_of_forall₂ hb hb' fun parent hmem a b ha hb => ?_
    obtain ⟨own, hown⟩ := exists_collects_parent h hmem
    exact ha.stamp_eq ((flattens_iff_collects hown b).1 hb)
  rw [Fields.stamp_mergeAll, Fields.stamp_mergeAll, List.map_append, List.map_append, hbelow]

/-- Flattening what a model was flattened to changes nothing. -/
theorem resolve_toModel (h : r.resolve model = .ok flat) : r.resolve flat.toModel = .ok flat := by
  refine (resolve_of_settled rfl (settled_of_resolve h)).trans ?_
  obtain ⟨fields, -, -, rfl⟩ := resolve_eq_ok.1 h
  simp [FlatModel.toModel]

/--
**Flattening is merging.** If a model inherits from registered models, and from nothing twice in a
row, then its parents have fields on their own, and the flat model has these, merged in order, and
then the own fields of the model, with no change but to the default of the one discriminator, which
is the name of the model. The names of the fields are distinct, and flattening them again changes
nothing. The model fails to flatten just if there are several discriminators, which the error lists
in their order.
-/
theorem resolve_merged (hr : r.Rooted model) (hc : ∀ names, r.Chain model names → names.Nodup) :
    (∃ below, List.Forall₂ r.Flattens model.parents below) ∧
      ∀ below, List.Forall₂ r.FlatAs model.parents below →
        let merged := Fields.mergeAll (below ++ [model.fields])
        (∀ flat, r.resolve model = .ok flat →
          flat.fields = merged.map (fun e => (e.1, e.2.stamped model.name)) ∧
          (Keyed.keys flat.fields).Nodup ∧ r.resolve flat.toModel = .ok flat) ∧
        ∀ e, r.resolve model = .error e ↔ 2 ≤ (discriminators merged).length ∧
          e = .duplicateDiscriminator model.name (discriminators merged) := by
  obtain ⟨fields, hfields⟩ := exists_collectAll_iff.2 ⟨hr, hc⟩
  obtain ⟨below, hbelow, -⟩ := (collectAll_merged_iff hfields).2 rfl
  refine ⟨⟨below, hbelow⟩, fun below hb => ?_⟩
  dsimp only
  have hstamp := stamp_merged hfields hb model.name
  have hdisc := discriminators_eq_of_stamp hstamp
  refine ⟨fun flat hflat => ⟨?_, (settled_of_resolve hflat).nodup, resolve_toModel hflat⟩, ?_⟩
  · obtain ⟨fields', hfields', -, rfl⟩ := resolve_eq_ok.1 hflat
    obtain rfl := Except.ok.inj (hfields.symm.trans hfields')
    exact hstamp.symm
  · intro e
    rw [resolve_eq_error hfields, hdisc]

/-- Two models that both inherit from a third one, the first with a field of its own in place. -/
def diamond : Registry :=
  let kind : Field := { shape := .scalar .string, discriminator := true }
  let animal : Model := .inheriting "Animal" [] [("kind", kind), ("legs", .ofKind .integer)]
  let cat : Model := .inheriting "Cat" ["Animal"] [("lives", .ofKind .integer), ("legs", .raw)]
  ((empty.put animal).put cat).put (.inheriting "Dog" ["Animal"] [])

theorem resolve_merged_diamond :
    let heir : Model := .inheriting "Mix" ["Cat", "Dog"] [("lives", .raw)]
    diamond.Rooted heir ∧ (∀ names, diamond.Chain heir names → names.Nodup) ∧
      ∃ below flat, List.Forall₂ diamond.Flattens heir.parents below ∧
        diamond.resolve heir = .ok flat ∧
        flat.fields = (Fields.mergeAll (below ++ [heir.fields])).map
          (fun e => (e.1, e.2.stamped "Mix")) ∧
        Keyed.keys flat.fields = ["kind", "legs", "lives"] ∧
        diamond.resolve flat.toModel = .ok flat := by
  intro heir
  have h : ((diamond.resolve heir).toOption.any fun flat =>
      Keyed.keys flat.fields == ["kind", "legs", "lives"]) = true := by
    cbv
  obtain ⟨flat, hflat, hkeys⟩ := exists_of_any_toOption h
  obtain ⟨fields, hfields, -⟩ := resolve_eq_ok.1 hflat
  obtain ⟨hr, hc⟩ := exists_collectAll_iff.1 ⟨fields, hfields⟩
  obtain ⟨⟨below, hbelow⟩, hmerged⟩ := resolve_merged hr hc
  obtain ⟨hok, -⟩ := hmerged below (hbelow.imp fun _ _ h => .inl h)
  obtain ⟨heq, -, hagain⟩ := hok flat hflat
  exact ⟨hr, hc, below, flat, hbelow, hflat, heq, eq_of_beq hkeys, hagain⟩

end Registry

end FieldMask
