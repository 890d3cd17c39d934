import FieldMask.Model.Flat
import FieldMask.Proofs.Keyed
import FieldMask.Proofs.Outcome

/-!
# What flat models hold

The fields of a flat model are the own fields of the model and of registered models
(`own_of_resolve`), where a discriminator has the name of the model as its default. Their names are
distinct, and at most one of them is a discriminator: `Settled` says so of fields, and
`resolve_of_settled` that a model without parents flattens to its own fields if these are settled.

Whatever can be said of fields and is kept when the own fields of registered models are put to them
holds of what a model collects from its ancestors (`collectAll_induct`).
-/

namespace FieldMask

namespace Field

/-- The field in a flat model of the given name: a discriminator has that name as its default. -/
def stamped (name : String) (field : Field) : Field :=
  if field.discriminator then { field with default := some (.str name) } else field

variable {name : String} {field : Field}

theorem stamped_of_discriminator (h : field.discriminator = true) :
    field.stamped name = { field with default := some (.str name) } := if_pos h

theorem stamped_of_not_discriminator (h : field.discriminator = false) :
    field.stamped name = field := by
  rw [stamped, h]
  rfl

/-- A discriminator that has the name as its default stays as it is. -/
theorem stamped_eq_self (h : field.discriminator = true → field.default = some (.str name)) :
    field.stamped name = field := by
  cases hd : field.discriminator with
  | false => exact stamped_of_not_discriminator hd
  | true =>
    rw [stamped_of_discriminator hd, ← h hd]
    cases field
    rfl

@[simp] theorem stamped_stamped {other : String} :
    (field.stamped other).stamped name = field.stamped name := by
  unfold stamped
  cases hd : field.discriminator <;> simp [hd]

/-- A copy without the default of a discriminator takes the same default. -/
theorem stamped_copy :
    (if field.discriminator then { field with default := none } else field).stamped name
      = field.stamped name := by
  unfold stamped
  cases hd : field.discriminator <;> simp [hd]

@[simp] theorem stamped_shape : (field.stamped name).shape = field.shape := by
  unfold stamped
  split <;> rfl

@[simp] theorem stamped_discriminator :
    (field.stamped name).discriminator = field.discriminator := by
  unfold stamped
  split <;> rfl

end Field

namespace Registry

variable {r : Registry} {model : Model} {flat : FlatModel} {name : String} {fields : Fields}

theorem stamp_eq_map : stamp name fields = fields.map fun e => (e.1, e.2.stamped name) := rfl

@[simp] theorem keys_stamp : Keyed.keys (stamp name fields) = Keyed.keys fields := by
  rw [stamp_eq_map, Keyed.keys, Keyed.keys, List.map_map]
  rfl

@[simp] theorem stamp_stamp {other : String} :
    stamp name (stamp other fields) = stamp name fields := by
  rw [stamp_eq_map, stamp_eq_map, stamp_eq_map, List.map_map]
  exact List.map_congr_left fun e _ => Prod.ext rfl Field.stamped_stamped

theorem stamp_putAll {more : Fields} :
    stamp name (Keyed.putAll fields more)
      = Keyed.putAll (stamp name fields) (stamp name more) := by
  rw [stamp_eq_map, stamp_eq_map, stamp_eq_map, Keyed.map_putAll]

@[simp] theorem discriminators_stamp :
    discriminators (stamp name fields) = discriminators fields := by
  rw [stamp_eq_map, discriminators, discriminators, List.filter_map, List.map_map]
  congr 1
  refine List.filter_congr fun e _ => ?_
  exact Field.stamped_discriminator

/-- Fields that differ in the defaults of discriminators alone have the same discriminators. -/
theorem discriminators_eq_of_stamp {more : Fields} (h : stamp name fields = stamp name more) :
    discriminators fields = discriminators more :=
  calc discriminators fields = discriminators (stamp name fields) := discriminators_stamp.symm
    _ = discriminators (stamp name more) := by rw [h]
    _ = discriminators more := discriminators_stamp

theorem mem_discriminators {key : String} :
    key ∈ discriminators fields ↔ ∃ field, (key, field) ∈ fields ∧ field.discriminator = true := by
  simp [discriminators]

theorem name_of_find? (h : r.find? name = some model) : model.name = name :=
  (r.named (name, model) (Keyed.mem_of_lookup h)).symm

theorem find?_of_mem {e : String × Model} (h : e ∈ r.models.entries) : r.find? e.1 = some e.2 :=
  Keyed.lookup_of_mem (List.pairwise_map.2 (r.models.ascending.imp Std.ne_of_lt)) h

theorem lookup_eq_ok : r.lookup name = .ok model ↔ r.find? name = some model := by
  unfold lookup
  cases r.find? name <;> simp

theorem contains_iff : r.contains name = true ↔ ∃ model, r.find? name = some model :=
  Option.isSome_iff_exists

theorem lookup_of_not_contains (h : r.contains name = false) :
    r.lookup name = .error (.unknownModel name) := by
  have hnone : r.find? name = none := Option.isNone_iff_eq_none.1 (Option.isSome_eq_false_iff.1 h)
  rw [lookup, hnone]

theorem define_eq_ok {r' : Registry} :
    r.define model = .ok r' ↔ r.find? model.name = none ∧
      (∀ parent ∈ model.parents, parent ≠ model.name ∧ ∃ m, r.find? parent = some m) ∧
      r.put model = r' := by
  have hparents : (model.parents.forM fun parent =>
      if parent = model.name then throw (.inheritanceCycle model.name)
      else discard (r.lookup parent)) = .ok () ↔
        ∀ parent ∈ model.parents, parent ≠ model.name ∧ ∃ m, r.find? parent = some m := by
    rw [forM_eq_ok]
    refine forall₂_congr fun parent _ => ?_
    split <;> simp [*, lookup_eq_ok]
  unfold define
  by_cases hc : r.contains model.name = true
  · obtain ⟨m, hm⟩ := contains_iff.1 hc
    simp [hc, hm]
  · have hnone : r.find? model.name = none :=
      Option.eq_none_iff_forall_ne_some.2 fun m hm => hc (contains_iff.2 ⟨m, hm⟩)
    rw [if_neg hc]
    constructor
    · intro h
      obtain ⟨_, hp, h⟩ := bind_eq_ok.1 h
      exact ⟨hnone, hparents.1 hp, pure_eq_ok.1 h⟩
    · rintro ⟨-, hp, rfl⟩
      exact bind_eq_ok.2 ⟨(), hparents.2 hp, rfl⟩

/-! ## Collecting -/

theorem collect_eq_ok {path : List String} {out : Fields} :
    r.collect path name fields = .ok out ↔
      name ∉ path ∧ ∃ model, r.find? name = some model ∧ ∃ inherited,
        model.parents.foldlM (fun acc parent => r.collect (name :: path) parent acc) fields
          = .ok inherited ∧ Keyed.putAll inherited model.fields = out := by
  rw [collect]
  split
  · rename_i h
    simp [h]
  · rename_i model h
    by_cases hp : name ∈ path <;> simp [h, hp]

theorem collect_of_find? (hm : r.find? name = some model) {path : List String} :
    r.collect path name fields =
      if name ∈ path then .error (.inheritanceCycle name)
      else do
        let inherited ← model.parents.foldlM
          (fun acc parent => r.collect (name :: path) parent acc) fields
        return Keyed.putAll inherited model.fields := by
  rw [collect]
  split
  · rename_i hnone
    cases hnone.symm.trans hm
  · rename_i m hm'
    obtain rfl := Option.some.inj (hm.symm.trans hm')
    split <;> rfl

variable {P : Fields → Prop}

/-- What the own fields of registered models keep, a registered model with its ancestors keeps. -/
theorem collect_induct
    (step : ∀ name model fields, r.find? name = some model → P fields →
      P (Keyed.putAll fields model.fields))
    {path : List String} {out : Fields} (h : r.collect path name fields = .ok out)
    (hf : P fields) : P out := by
  induction path, name, fields using Registry.collect.induct (r := r) generalizing out with
  | case1 path name fields hr =>
    obtain ⟨-, model, hm, -⟩ := collect_eq_ok.1 h
    rw [hr] at hm
    cases hm
  | case2 path name fields model hr hp => exact absurd hp (collect_eq_ok.1 h).1
  | case3 path name fields model hr hp ih =>
    obtain ⟨-, model, hm, inherited, hi, rfl⟩ := collect_eq_ok.1 h
    refine step name model inherited hm ?_
    exact foldlM_induct (fun fields parent _ fields' hf h => ih fields parent h hf) hf hi

theorem collectAll_eq_ok :
    r.collectAll model = .ok fields ↔
      ∃ inherited,
        model.parents.foldlM (fun acc parent => r.collect [model.name] parent acc) []
          = .ok inherited ∧ Keyed.putAll inherited model.fields = fields := by
  simp [collectAll]

/-- A model has fields if they are collected for each of its parents, whatever was before. -/
theorem exists_collectAll_of_parents (h : ∀ acc, ∀ parent ∈ model.parents,
    ∃ out, r.collect [model.name] parent acc = .ok out) :
    ∃ fields, r.collectAll model = .ok fields := by
  obtain ⟨inherited, hi⟩ := exists_foldlM_eq_ok (b := []) h
  exact ⟨_, collectAll_eq_ok.2 ⟨inherited, hi, rfl⟩⟩

/-- A model without parents has its own fields. -/
theorem collectAll_of_parents_eq_nil (hp : model.parents = [])
    (hn : (Keyed.keys model.fields).Nodup) : r.collectAll model = .ok model.fields := by
  refine collectAll_eq_ok.2 ⟨[], ?_, Keyed.ofPairs_eq_self hn⟩
  rw [hp]
  rfl

/-- What own fields keep when they are put, the fields of a model and its ancestors have. -/
theorem collectAll_induct (h : r.collectAll model = .ok fields) (nil : P [])
    (step : ∀ name model fields, r.find? name = some model → P fields →
      P (Keyed.putAll fields model.fields))
    (own : ∀ fields, P fields → P (Keyed.putAll fields model.fields)) : P fields := by
  obtain ⟨inherited, hi, rfl⟩ := collectAll_eq_ok.1 h
  refine own inherited ?_
  exact foldlM_induct (fun fields parent _ fields' hf h => collect_induct step h hf) nil hi

/-- Every parent of a model that collects its fields is registered. -/
theorem find?_parent_of_collectAll (h : r.collectAll model = .ok fields) {parent : String}
    (hp : parent ∈ model.parents) : ∃ m, r.find? parent = some m := by
  obtain ⟨inherited, hi, -⟩ := collectAll_eq_ok.1 h
  obtain ⟨acc, next, hc⟩ := exists_step_of_foldlM hi hp
  obtain ⟨-, m, hm, -⟩ := collect_eq_ok.1 hc
  exact ⟨m, hm⟩

/-! ## Flattening -/

theorem resolve_eq_ok :
    r.resolve model = .ok flat ↔
      ∃ fields, r.collectAll model = .ok fields ∧ (discriminators fields).length ≤ 1 ∧
        { name := model.name, fields := stamp model.name fields, mask := model.mask,
          description := model.description, strict := model.strict,
          discriminator := (discriminators fields).head? } = flat := by
  unfold resolve
  rw [bind_eq_ok]
  refine exists_congr fun fields => and_congr_right fun _ => ?_
  by_cases h : 1 < (discriminators fields).length
  · simp [h, Nat.not_le.2 h]
  · simp [h, Nat.not_lt.1 h]

/-- A model whose fields are collected fails to flatten for several discriminators alone. -/
theorem resolve_eq_error (hc : r.collectAll model = .ok fields) {e : ModelError} :
    r.resolve model = .error e ↔ 2 ≤ (discriminators fields).length ∧
      e = .duplicateDiscriminator model.name (discriminators fields) := by
  rw [resolve, hc, bind_ok]
  dsimp only
  split
  · rename_i h
    exact ⟨fun he => ⟨h, (Except.error.inj he).symm⟩, fun he => congrArg Except.error he.2.symm⟩
  · rename_i h
    exact iff_of_false nofun fun he => h he.1

/--
The fields have distinct names, at most one of them is a discriminator, and it has the given name as
its default.
-/
structure Settled (name : String) (fields : Fields) : Prop where
  nodup : (Keyed.keys fields).Nodup
  discriminators : (discriminators fields).length ≤ 1
  default : ∀ e ∈ fields, e.2.discriminator = true → e.2.default = some (.str name)

/-- The fields of a flat model are settled. -/
theorem settled_of_resolve (h : r.resolve model = .ok flat) : Settled flat.name flat.fields := by
  obtain ⟨fields, hc, hd, rfl⟩ := resolve_eq_ok.1 h
  refine ⟨?_, ?_, ?_⟩
  · show (Keyed.keys (stamp model.name fields)).Nodup
    rw [keys_stamp]
    refine collectAll_induct (P := fun fields => (Keyed.keys fields).Nodup) hc List.nodup_nil ?_ ?_
    · exact fun _ _ _ _ h => Keyed.nodup_keys_putAll h
    · exact fun _ h => Keyed.nodup_keys_putAll h
  · show (Registry.discriminators (stamp model.name fields)).length ≤ 1
    rwa [discriminators_stamp]
  · intro e he hdisc
    obtain ⟨e, -, rfl⟩ := List.mem_map.1 (stamp_eq_map ▸ he)
    have hd' : e.2.discriminator = true := Field.stamped_discriminator.symm.trans hdisc
    rw [Field.stamped_of_discriminator hd']

theorem stamp_of_settled (h : Settled name fields) : stamp name fields = fields := by
  rw [stamp_eq_map]
  conv_rhs => rw [← List.map_id fields]
  refine List.map_congr_left fun e he => ?_
  rw [Field.stamped_eq_self (h.default e he)]
  rfl

/-- A model without parents flattens to its own fields if these are settled. -/
theorem resolve_of_settled (hp : model.parents = []) (h : Settled model.name model.fields) :
    r.resolve model = .ok
      { name := model.name, fields := model.fields, mask := model.mask,
        description := model.description, strict := model.strict,
        discriminator := (discriminators model.fields).head? } := by
  have hc : r.collectAll model = .ok model.fields := collectAll_of_parents_eq_nil hp h.nodup
  refine resolve_eq_ok.2 ⟨model.fields, hc, h.discriminators, ?_⟩
  rw [stamp_of_settled h]

/--
Every field of a flat model is an own field of the model or of a registered one, but for the default
of a discriminator.
-/
theorem own_of_resolve (h : r.resolve model = .ok flat) {e : String × Field}
    (he : e ∈ flat.fields) :
    ∃ owner field, (owner = model ∨ ∃ name, r.find? name = some owner) ∧
      (e.1, field) ∈ owner.fields ∧ e.2 = field.stamped model.name := by
  obtain ⟨fields, hc, -, rfl⟩ := resolve_eq_ok.1 h
  obtain ⟨e, hmem, rfl⟩ := List.mem_map.1 (stamp_eq_map ▸ he)
  have hown : ∀ e ∈ fields, ∃ owner, (owner = model ∨ ∃ name, r.find? name = some owner) ∧
      e ∈ owner.fields := by
    refine collectAll_induct (P := fun fields => ∀ e ∈ fields, ∃ owner : Model,
      (owner = model ∨ ∃ name, r.find? name = some owner) ∧ e ∈ owner.fields) hc ?_ ?_ ?_
    · exact List.forall_mem_nil _
    · intro name owner fields hr ih e he
      rcases Keyed.mem_putAll he with he | he
      · exact ih e he
      · exact ⟨owner, .inr ⟨name, hr⟩, he⟩
    · intro fields ih e he
      rcases Keyed.mem_putAll he with he | he
      · exact ih e he
      · exact ⟨model, .inl rfl, he⟩
  obtain ⟨owner, ho, hm⟩ := hown _ hmem
  exact ⟨owner, e.2, ho, hm, rfl⟩

/-- The names of what a registered model flattens to are those of fields of registered models. -/
theorem exists_owner_of_resolve (hm : r.find? name = some model) (h : r.resolve model = .ok flat)
    {key : String} (hk : key ∈ Keyed.keys flat.fields) :
    ∃ name owner, r.find? name = some owner ∧ key ∈ Keyed.keys owner.fields := by
  obtain ⟨e, he, rfl⟩ := List.mem_map.1 hk
  obtain ⟨owner, field, howner, hmem, -⟩ := own_of_resolve h he
  rcases howner with rfl | ⟨name', hname'⟩
  · exact ⟨name, owner, hm, Keyed.mem_keys_of_mem (m := (e.1, field)) hmem⟩
  · exact ⟨name', owner, hname', Keyed.mem_keys_of_mem (m := (e.1, field)) hmem⟩

/-- What a registered model flattens to has own fields of registered models and a discriminator. -/
theorem registered_of_resolve (hm : r.find? name = some model) (h : r.resolve model = .ok flat)
    {e : String × Field} (he : e ∈ flat.fields) (hd : e.2.discriminator = false) :
    ∃ name owner, r.find? name = some owner ∧ e ∈ owner.fields := by
  obtain ⟨owner, field, howner, hmem, heq⟩ := own_of_resolve h he
  rw [heq, Field.stamped_discriminator] at hd
  rw [Field.stamped_of_not_discriminator hd] at heq
  rw [← heq] at hmem
  rcases howner with rfl | ⟨name', hname'⟩
  · exact ⟨name, owner, hm, hmem⟩
  · exact ⟨name', owner, hname', hmem⟩

end Registry

end FieldMask
