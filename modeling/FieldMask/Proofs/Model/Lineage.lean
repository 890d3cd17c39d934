import FieldMask.Proofs.Declaration.Sound
import FieldMask.Proofs.Model.Calls

/-!
# The lineage of a model

The lineage of a model is the model itself and all that it inherits from. A flat model has a field
of every name that a model of the lineage has (`Lineage.keys_resolve`), and each of its fields is an
own field of one of them, but for the default of a discriminator (`lineage_of_resolve`).

A loaded registry is in order, just as one that is built by calls (`orderly_of_load`).
-/

namespace FieldMask

/-- The first model inherits from the second one, through registered parents, or is that model. -/
inductive Registry.Lineage (r : Registry) : Model → Model → Prop
  | refl (model : Model) : Registry.Lineage r model model
  | parent {model owner m : Model} {name : String} (hp : name ∈ model.parents)
      (hm : r.find? name = some m) (h : Registry.Lineage r m owner) :
      Registry.Lineage r model owner

/-! ## Loaded registries are in order -/

namespace Declaration

variable {r : Registry}

/-- Registering a declaration keeps the registry in order. -/
theorem orderly_register (hr : r.Orderly) {d : Declaration} {r' : Registry}
    (h : d.register r = .ok r') : r'.Orderly := by
  obtain ⟨model, hmodel, hdefine⟩ := bind_eq_ok.1 h
  obtain ⟨flats, -, hmodel⟩ := bind_eq_ok.1 hmodel
  obtain ⟨hfree, hparents, rfl⟩ := Registry.define_eq_ok.1 hdefine
  have hnodup : (Keyed.keys model.fields).Nodup := by
    obtain rfl := pure_eq_ok.1 hmodel
    exact Keyed.nodup_keys_putAll (Keyed.nodup_keys_putAll List.nodup_nil)
  obtain ⟨rank, hrank⟩ := hr.ranked
  refine ⟨fun {name m} hm => ?_, hrank.put hfree fun parent hmem => (hparents parent hmem).2⟩
  rw [Registry.find?_put] at hm
  split at hm
  · obtain rfl := Option.some.inj hm
    exact hnodup
  · exact hr.nodup hm

end Declaration

namespace Registry

variable {r : Registry} {model owner : Model} {flat : FlatModel} {name : String} {fields : Fields}

theorem orderly_of_load {document : Json} (h : Registry.load document = .ok r) : r.Orderly := by
  obtain ⟨values, ds, -, -, hl, -⟩ := load_eq_ok.1 h
  refine foldlM_induct (P := Registry.Orderly) (fun r d _ r' hr h => ?_) Call.orderly_empty hl
  exact Declaration.orderly_register hr h

/-! ## Where collected fields come from -/

theorem Lineage.trans {a b c : Model} (hab : r.Lineage a b) (hbc : r.Lineage b c) :
    r.Lineage a c := by
  induction hab with
  | refl => exact hbc
  | parent hp hm _ ih => exact .parent hp hm (ih hbc)

/-- A model is its own lineage, with the lineages of its parents. -/
theorem Lineage.eq_or_parent (h : r.Lineage model owner) :
    owner = model ∨ ∃ parent ∈ model.parents, ∃ m, r.find? parent = some m ∧ r.Lineage m owner := by
  cases h with
  | refl => exact .inl rfl
  | parent hp hm h => exact .inr ⟨_, hp, _, hm, h⟩

/-- The lineage of a model whose one parent has no parents is the two of them. -/
theorem Lineage.eq_or_eq {parent : Model} (h : r.Lineage model owner)
    (hparents : model.parents = [name]) (hname : r.find? name = some parent)
    (hroot : parent.parents = []) : owner = model ∨ owner = parent := by
  obtain h | ⟨p, hp, m, hm, h⟩ := h.eq_or_parent
  · exact .inl h
  · obtain rfl := List.mem_singleton.1 (hparents ▸ hp)
    obtain rfl := Option.some.inj (hname.symm.trans hm)
    obtain h | ⟨p, hp, -⟩ := h.eq_or_parent
    · exact .inr h
    · cases hroot ▸ hp

theorem lineage_of_collect {path : List String} {out : Fields}
    (h : r.collect path name fields = .ok out) (hm : r.find? name = some model) :
    ∀ e ∈ out, e ∈ fields ∨ ∃ owner, r.Lineage model owner ∧ e ∈ owner.fields := by
  induction path, name, fields using Registry.collect.induct (r := r) generalizing model out with
  | case1 path name fields hr => cases hr.symm.trans hm
  | case2 path name fields m hr hp => exact absurd hp (collect_eq_ok.1 h).1
  | case3 path name fields m hr hp ih =>
    obtain ⟨-, m', hm', inherited, hi, rfl⟩ := collect_eq_ok.1 h
    obtain rfl := Option.some.inj (hm.symm.trans hm')
    obtain rfl := Option.some.inj (hm.symm.trans hr)
    have hinherited : ∀ e ∈ inherited,
        e ∈ fields ∨ ∃ owner, r.Lineage model owner ∧ e ∈ owner.fields := by
      refine foldlM_induct (P := fun acc => ∀ e ∈ acc,
        e ∈ fields ∨ ∃ owner, r.Lineage model owner ∧ e ∈ owner.fields) ?_ (fun e he => .inl he) hi
      intro acc parent hparent acc' hacc hc e he
      obtain ⟨-, p, hp, -⟩ := collect_eq_ok.1 hc
      rcases ih acc parent hc hp e he with he | ⟨owner, howner, he⟩
      · exact hacc e he
      · exact .inr ⟨owner, .parent hparent hp howner, he⟩
    intro e he
    rcases Keyed.mem_putAll he with he | he
    · exact hinherited e he
    · exact .inr ⟨model, .refl model, he⟩

/-- Every collected field is an own field of a model of the lineage. -/
theorem lineage_of_collectAll (h : r.collectAll model = .ok fields) {e : String × Field}
    (he : e ∈ fields) : ∃ owner, r.Lineage model owner ∧ e ∈ owner.fields := by
  obtain ⟨inherited, hi, rfl⟩ := collectAll_eq_ok.1 h
  rcases Keyed.mem_putAll he with he | he
  · refine foldlM_induct (P := fun acc => ∀ e ∈ acc,
      ∃ owner, r.Lineage model owner ∧ e ∈ owner.fields) ?_ (List.forall_mem_nil _) hi e he
    intro acc parent hparent acc' hacc hc e he
    obtain ⟨-, p, hp, -⟩ := collect_eq_ok.1 hc
    rcases lineage_of_collect hc hp e he with he | ⟨owner, howner, he⟩
    · exact hacc e he
    · exact ⟨owner, .parent hparent hp howner, he⟩
  · exact ⟨model, .refl model, he⟩

/--
Every field of a flat model is an own field of a model of the lineage, but for the default of a
discriminator.
-/
theorem lineage_of_resolve (h : r.resolve model = .ok flat) {e : String × Field}
    (he : e ∈ flat.fields) :
    ∃ owner field, r.Lineage model owner ∧ (e.1, field) ∈ owner.fields ∧
      e.2 = field.stamped model.name := by
  obtain ⟨fields, hc, -, rfl⟩ := resolve_eq_ok.1 h
  obtain ⟨e, hmem, rfl⟩ := List.mem_map.1 (stamp_eq_map ▸ he)
  obtain ⟨owner, howner, hm⟩ := lineage_of_collectAll hc hmem
  exact ⟨owner, e.2, howner, hm, rfl⟩

/-! ## No name is lost -/

theorem keys_collect {path : List String} {out : Fields}
    (h : r.collect path name fields = .ok out) : Keyed.keys fields ⊆ Keyed.keys out := by
  refine collect_induct (P := fun acc => Keyed.keys fields ⊆ Keyed.keys acc) ?_ h
    (List.Subset.refl _)
  exact fun _ _ _ _ hf => List.Subset.trans hf Keyed.keys_subset_putAll

/-- What one of several parents brings in stays, whatever the parents behind it bring in. -/
theorem keys_of_parents {path : List String} {parents : List String} {acc out : Fields}
    {keys : List String}
    (h : parents.foldlM (fun acc parent => r.collect path parent acc) acc = .ok out)
    {parent : String} (hp : parent ∈ parents)
    (hstep : ∀ fields out, r.collect path parent fields = .ok out → keys ⊆ Keyed.keys out) :
    keys ⊆ Keyed.keys out := by
  induction parents generalizing acc with
  | nil => cases hp
  | cons first rest ih =>
    obtain ⟨acc', hc, hrest⟩ := bind_eq_ok.1 (List.foldlM_cons.symm.trans h)
    rcases List.mem_cons.1 hp with rfl | hp
    · refine List.Subset.trans (hstep acc acc' hc) ?_
      refine foldlM_induct (P := fun fields => Keyed.keys acc' ⊆ Keyed.keys fields) ?_
        (List.Subset.refl _) hrest
      exact fun _ _ _ _ hf hc => List.Subset.trans hf (keys_collect hc)
    · exact ih hrest hp

theorem Lineage.keys_collect (h : r.Lineage model owner) (hm : r.find? name = some model)
    {path : List String} {out : Fields} (hc : r.collect path name fields = .ok out) :
    Keyed.keys owner.fields ⊆ Keyed.keys out := by
  induction h generalizing name path fields out with
  | refl model =>
    obtain ⟨-, m, hm', inherited, -, rfl⟩ := collect_eq_ok.1 hc
    obtain rfl := Option.some.inj (hm.symm.trans hm')
    exact Keyed.subset_keys_putAll
  | parent hp hparent _ ih =>
    obtain ⟨-, m, hm', inherited, hi, rfl⟩ := collect_eq_ok.1 hc
    obtain rfl := Option.some.inj (hm.symm.trans hm')
    have hkeys := keys_of_parents hi hp fun _ _ hc => ih hparent hc
    exact List.Subset.trans hkeys Keyed.keys_subset_putAll

/-- A flat model has a field of every name that a model of the lineage has. -/
theorem Lineage.keys_resolve (h : r.Lineage model owner) (hr : r.resolve model = .ok flat) :
    Keyed.keys owner.fields ⊆ Keyed.keys flat.fields := by
  obtain ⟨fields, hc, -, rfl⟩ := resolve_eq_ok.1 hr
  obtain ⟨inherited, hi, rfl⟩ := collectAll_eq_ok.1 hc
  show _ ⊆ Keyed.keys (stamp _ _)
  rw [keys_stamp]
  cases h with
  | refl => exact Keyed.subset_keys_putAll
  | parent hp hparent h =>
    have hkeys := keys_of_parents hi hp fun _ _ hc => h.keys_collect hparent hc
    exact List.Subset.trans hkeys Keyed.keys_subset_putAll

end Registry

end FieldMask
