import FieldMask.Proofs.Model.Flat

/-!
# Fields of parents, one after the other

What a registered model collects does not depend on the way that leads to it, nor on what was
collected before: the fields that it has with its own ancestors are put to those
(`putAll_of_collect`). So the fields of a model are those of its parents, each with its ancestors,
in order, and then its own; a later field replaces an earlier one of the same name where it stands
(`collectAll_eq_ofPairs`).
-/

namespace FieldMask

namespace Registry

variable {r : Registry} {name : String} {model : Model} {path : List String}
  {fields found out : Fields}

/-- Two ways to a model put the same fields to what was collected on each. -/
theorem exists_putAll_of_collect (h : r.collect path name fields = .ok out) :
    ∀ path' fields' out', r.collect path' name fields' = .ok out' →
      ∃ found, (Keyed.keys found).Nodup ∧ Keyed.putAll fields found = out ∧
        Keyed.putAll fields' found = out' := by
  induction path, name, fields using Registry.collect.induct (r := r) generalizing out with
  | case1 path name fields hr =>
    obtain ⟨-, m, hm, -⟩ := collect_eq_ok.1 h
    cases hr.symm.trans hm
  | case2 path name fields m hr hp => exact absurd hp (collect_eq_ok.1 h).1
  | case3 path name fields m hr hp ih =>
    intro path' fields' out' h'
    obtain ⟨-, m₁, hm₁, inherited, hi, rfl⟩ := collect_eq_ok.1 h
    obtain ⟨-, m₂, hm₂, inherited', hi', rfl⟩ := collect_eq_ok.1 h'
    obtain rfl := Option.some.inj (hr.symm.trans hm₁)
    obtain rfl := Option.some.inj (hr.symm.trans hm₂)
    have hparents : ∃ found, (Keyed.keys found).Nodup ∧ Keyed.putAll fields found = inherited ∧
        Keyed.putAll fields' found = inherited' := by
      refine foldlM_induct₂ (R := fun acc acc' => ∃ found, (Keyed.keys found).Nodup ∧
        Keyed.putAll fields found = acc ∧ Keyed.putAll fields' found = acc') ?_
        ⟨[], List.nodup_nil, rfl, rfl⟩ hi hi'
      rintro acc acc' parent - next next' ⟨found, hn, rfl, rfl⟩ hc hc'
      obtain ⟨more, -, rfl, rfl⟩ := ih _ parent hc _ _ _ hc'
      exact ⟨_, Keyed.nodup_keys_putAll hn, Keyed.putAll_putAll hn, Keyed.putAll_putAll hn⟩
    obtain ⟨found, hn, rfl, rfl⟩ := hparents
    exact ⟨_, Keyed.nodup_keys_putAll hn, Keyed.putAll_putAll hn, Keyed.putAll_putAll hn⟩

theorem collect_root (hm : r.find? name = some model) :
    r.collect [] name [] = .ok found ↔ r.collectAll model = .ok found := by
  rw [collect_eq_ok, collectAll_eq_ok, name_of_find? hm]
  constructor
  · rintro ⟨-, m, hm', h⟩
    obtain rfl := Option.some.inj (hm.symm.trans hm')
    exact h
  · exact fun h => ⟨List.not_mem_nil, model, hm, h⟩

/-- What a registered model collects is put to what was collected before. -/
theorem putAll_of_collect (hm : r.find? name = some model) (ha : r.collectAll model = .ok found)
    (h : r.collect path name fields = .ok out) : Keyed.putAll fields found = out := by
  obtain ⟨found', hn, rfl, hfound⟩ := exists_putAll_of_collect h _ _ _ ((collect_root hm).2 ha)
  rw [← hfound]
  exact congrArg _ (Keyed.ofPairs_eq_self hn)

/-- The fields of a registered model with those of all its ancestors. -/
def Collects (r : Registry) (name : String) (fields : Fields) : Prop :=
  ∃ model, r.find? name = some model ∧ r.collectAll model = .ok fields

theorem Collects.unique (h : r.Collects name fields) (h' : r.Collects name found) :
    fields = found := by
  obtain ⟨model, hm, ha⟩ := h
  obtain ⟨model', hm', ha'⟩ := h'
  obtain rfl := Option.some.inj (hm.symm.trans hm')
  exact Except.ok.inj (ha.symm.trans ha')

/-- A model that is collected below a path is also collected below fewer of the registered names. -/
theorem exists_collect_of_collect (h : r.collect path name fields = .ok out) {path' : List String}
    (hp : ∀ n ∈ path', n ∈ path ∨ r.find? n = none) (fields' : Fields) :
    ∃ out', r.collect path' name fields' = .ok out' := by
  induction path, name, fields using Registry.collect.induct (r := r)
    generalizing path' fields' out with
  | case1 path name fields hr =>
    obtain ⟨-, m, hm, -⟩ := collect_eq_ok.1 h
    cases hr.symm.trans hm
  | case2 path name fields m hr hmem => exact absurd hmem (collect_eq_ok.1 h).1
  | case3 path name fields m hr hnew ih =>
    obtain ⟨-, m', hm, inherited, hi, -⟩ := collect_eq_ok.1 h
    obtain rfl := Option.some.inj (hr.symm.trans hm)
    have hnew' : name ∉ path' := by
      intro hmem
      rcases hp name hmem with hmem | hnone
      · exact hnew hmem
      · cases hnone.symm.trans hr
    have hparents : ∃ inherited', m.parents.foldlM
        (fun acc parent => r.collect (name :: path') parent acc) fields' = .ok inherited' := by
      refine exists_foldlM_eq_ok fun acc parent hmem => ?_
      obtain ⟨acc', next, hc⟩ := exists_step_of_foldlM hi hmem
      refine ih acc' parent hc (fun n hn => ?_) acc
      rcases List.mem_cons.1 hn with rfl | hn
      · exact .inl List.mem_cons_self
      · exact (hp n hn).imp_left (List.mem_cons_of_mem _)
    obtain ⟨inherited', hi'⟩ := hparents
    exact ⟨_, collect_eq_ok.2 ⟨hnew', m, hr, inherited', hi', rfl⟩⟩

/-- What is collected on some way to a model is also collected for the model alone. -/
theorem exists_collects (h : r.collect path name fields = .ok out) :
    ∃ found, r.Collects name found := by
  obtain ⟨-, model, hm, -⟩ := collect_eq_ok.1 h
  obtain ⟨found, hfound⟩ := exists_collect_of_collect h (List.forall_mem_nil _) []
  exact ⟨found, model, hm, (collect_root hm).1 hfound⟩

/-- What is collected for a model is collected for each of its parents alone. -/
theorem exists_collects_parent (h : r.collectAll model = .ok fields) {parent : String}
    (hp : parent ∈ model.parents) : ∃ found, r.Collects parent found := by
  obtain ⟨inherited, hi, -⟩ := collectAll_eq_ok.1 h
  obtain ⟨acc, next, hc⟩ := exists_step_of_foldlM hi hp
  exact exists_collects hc

theorem exists_collects_of_parents {parents : List String}
    (h : parents.foldlM (fun acc parent => r.collect path parent acc) fields = .ok out) :
    ∃ below, List.Forall₂ r.Collects parents below := by
  induction parents generalizing fields with
  | nil => exact ⟨[], .nil⟩
  | cons parent parents ih =>
    obtain ⟨next, hc, h⟩ := bind_eq_ok.1 (List.foldlM_cons.symm.trans h)
    obtain ⟨found, hfound⟩ := exists_collects hc
    obtain ⟨below, hbelow⟩ := ih h
    exact ⟨found :: below, .cons hfound hbelow⟩

theorem putAll_of_parents {parents : List String} {below : List Fields}
    (hb : List.Forall₂ r.Collects parents below)
    (h : parents.foldlM (fun acc parent => r.collect path parent acc) fields = .ok out) :
    Keyed.putAll fields below.flatten = out := by
  induction hb generalizing fields with
  | nil => exact pure_eq_ok.1 h
  | cons hparent _ ih =>
    obtain ⟨model, hm, ha⟩ := hparent
    obtain ⟨next, hc, h⟩ := bind_eq_ok.1 (List.foldlM_cons.symm.trans h)
    rw [List.flatten_cons, Keyed.putAll_append, putAll_of_collect hm ha hc]
    exact ih h

/-- The fields of a model are those of its parents, in order, and then its own. -/
theorem collectAll_eq_ofPairs {below : List Fields}
    (hb : List.Forall₂ r.Collects model.parents below) (h : r.collectAll model = .ok fields) :
    Keyed.ofPairs (below.flatten ++ model.fields) = fields := by
  obtain ⟨inherited, hi, rfl⟩ := collectAll_eq_ok.1 h
  rw [Keyed.ofPairs, Keyed.putAll_append, putAll_of_parents hb hi]

end Registry

end FieldMask
