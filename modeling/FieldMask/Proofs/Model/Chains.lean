import FieldMask.Proofs.Model.Lineage
import FieldMask.Proofs.Model.Merging

/-!
# Chains of parents and cycles

A chain up from a model is its own name, then that of one of its parents, and so on. If all that the
model inherits from is registered, its fields are collected just if no chain up from it holds a name
twice (`collectAll_endsIf`): on the way up a chain, the path holds the names below and no others, so
a model that is inherited from on several ways does not meet itself. A cycle is reported otherwise
(`resolve_cycle_iff`).

The names on a path are registered and distinct, so there is no end to how often a model may be
inherited from, but models are never nested more deeply than there are models
(`length_le_of_isChain_nests`).
-/

namespace FieldMask

/-- Names in a row up from a model: its own, that of one of its parents, and so on. -/
inductive Registry.Chain (r : Registry) : Model → List String → Prop
  | here (model : Model) : Registry.Chain r model [model.name]
  | up {model m : Model} {name : String} {names : List String} (hp : name ∈ model.parents)
      (hm : r.find? name = some m) (h : Registry.Chain r m names) :
      Registry.Chain r model (model.name :: names)

namespace Registry

variable {r : Registry} {model : Model} {name : String} {path : List String} {fields : Fields}

/-- All that the model inherits from, through any number of parents, is registered. -/
def Rooted (r : Registry) (model : Model) : Prop :=
  ∀ owner, r.Lineage model owner → ∀ parent ∈ owner.parents, r.contains parent = true

theorem Rooted.parent (h : r.Rooted model) (hp : name ∈ model.parents) :
    ∃ m, r.find? name = some m ∧ r.Rooted m := by
  obtain ⟨m, hm⟩ := contains_iff.1 (h model (.refl model) name hp)
  exact ⟨m, hm, fun owner howner => h owner (.parent hp hm howner)⟩

/-- In a registry whose models all have registered parents, a model with such parents is rooted. -/
theorem rooted_of_parents (h : ∀ m ∈ r.toList, ∀ parent ∈ m.parents, r.contains parent = true)
    (hp : ∀ parent ∈ model.parents, r.contains parent = true) : r.Rooted model := by
  intro owner howner
  induction howner with
  | refl => exact hp
  | parent _ hm _ ih => exact ih (h _ (mem_toList_of_find? hm))

/-- No chain up from the model holds a name twice, or a name of the path. -/
def Clear (r : Registry) (path : List String) (model : Model) : Prop :=
  ∀ names, r.Chain model names → (names ++ path).Nodup

theorem clear_iff :
    r.Clear path model ↔ (model.name :: path).Nodup ∧
      ∀ name ∈ model.parents, ∀ m, r.find? name = some m → r.Clear (model.name :: path) m := by
  constructor
  · intro h
    refine ⟨h _ (.here model), fun name hp m hm names hnames => ?_⟩
    exact List.perm_middle.nodup_iff.2 (h _ (.up hp hm hnames))
  · rintro ⟨hpath, hparents⟩ names hnames
    cases hnames with
    | here => exact hpath
    | up hp hm hnames => exact List.perm_middle.nodup_iff.1 (hparents _ hp _ hm _ hnames)

/-! ## Collecting -/

/-- It ends well if the condition holds, and in a cycle if not. -/
def EndsIf (clear : Prop) (x : Except ModelError Fields) : Prop :=
  Ends (fun _ => clear) (fun e => (∃ n, e = .inheritanceCycle n) ∧ ¬clear) x

/-- A model is collected below a path if the path is clear for it, once its parents are. -/
theorem endsIf_parents (hr : r.Rooted model) (hpath : (model.name :: path).Nodup)
    (step : ∀ acc name m, r.find? name = some m → r.Rooted m →
      EndsIf (r.Clear (model.name :: path) m) (r.collect (model.name :: path) name acc)) :
    EndsIf (r.Clear path model) (do
      let inherited ← model.parents.foldlM
        (fun acc parent => r.collect (model.name :: path) parent acc) fields
      return Keyed.putAll inherited model.fields) := by
  have hparents : EndsIf
      (∀ name ∈ model.parents, ∀ m, r.find? name = some m → r.Clear (model.name :: path) m)
      (model.parents.foldlM
        (fun acc parent => r.collect (model.name :: path) parent acc) fields) := by
    refine ends_foldlM_each fun acc name hmem => ?_
    obtain ⟨m, hm, hrm⟩ := hr.parent hmem
    have hclear : (∀ m, r.find? name = some m → r.Clear (model.name :: path) m) ↔
        r.Clear (model.name :: path) m := by
      refine ⟨fun h => h m hm, fun h m' hm' => ?_⟩
      obtain rfl := Option.some.inj (hm.symm.trans hm')
      exact h
    rw [hclear]
    exact step acc name m hm hrm
  rw [clear_iff, and_iff_right hpath]
  cases hfold : model.parents.foldlM
      (fun acc parent => r.collect (model.name :: path) parent acc) fields with
  | ok inherited => exact hparents.of_ok hfold
  | error e => exact hparents.of_error hfold

/-- A registered model is collected below a path if the path is clear for it. -/
theorem collect_endsIf (hm : r.find? name = some model) (hr : r.Rooted model)
    (hpath : path.Nodup) (fields : Fields) :
    EndsIf (r.Clear path model) (r.collect path name fields) := by
  induction path, name, fields using Registry.collect.induct (r := r) generalizing model with
  | case1 path name fields hnone => cases hnone.symm.trans hm
  | case2 path name fields m hm' hp =>
    rw [collect_of_find? hm, if_pos hp]
    obtain rfl := name_of_find? hm
    exact ⟨⟨_, rfl⟩, fun hclear => (List.nodup_cons.1 (clear_iff.1 hclear).1).1 hp⟩
  | case3 path name fields m hm' hp ih =>
    rw [collect_of_find? hm, if_neg hp]
    obtain rfl := name_of_find? hm
    have hpath' : (model.name :: path).Nodup := List.nodup_cons.2 ⟨hp, hpath⟩
    exact endsIf_parents hr hpath' fun acc name m hm hrm => ih acc name hm hrm hpath'

/-- The fields of a model are collected if no chain up from it holds a name twice. -/
theorem collectAll_endsIf (hr : r.Rooted model) :
    EndsIf (∀ names, r.Chain model names → names.Nodup) (r.collectAll model) := by
  have hclear : r.Clear [] model ↔ ∀ names, r.Chain model names → names.Nodup :=
    forall₂_congr fun names _ => by rw [List.append_nil]
  rw [← hclear]
  refine endsIf_parents hr (List.nodup_singleton _) fun acc name m hm hrm => ?_
  exact collect_endsIf hm hrm (List.nodup_singleton _) acc

/-- A model whose fields are collected inherits from registered models only. -/
theorem rooted_of_collectAll (h : r.collectAll model = .ok fields) : r.Rooted model := by
  intro owner howner
  induction howner generalizing fields with
  | refl =>
    intro parent hp
    exact contains_iff.2 (find?_parent_of_collectAll h hp)
  | parent hp hm _ ih =>
    obtain ⟨found, m, hm', hfound⟩ := exists_collects_parent h hp
    obtain rfl := Option.some.inj (hm.symm.trans hm')
    exact ih hfound

/-- A model has fields just if all above it is registered and no chain repeats a name. -/
theorem exists_collectAll_iff : (∃ fields, r.collectAll model = .ok fields) ↔
    r.Rooted model ∧ ∀ names, r.Chain model names → names.Nodup := by
  constructor
  · rintro ⟨fields, h⟩
    exact ⟨rooted_of_collectAll h, (collectAll_endsIf (rooted_of_collectAll h)).of_ok h⟩
  · rintro ⟨hr, hclear⟩
    cases h : r.collectAll model with
    | ok fields => exact ⟨fields, rfl⟩
    | error e => exact absurd hclear ((collectAll_endsIf hr).of_error h).2

/-! ## Nesting -/

/--
Collecting the second model, below the names of its path, is part of collecting the first one: it is
a parent of it, and the first one was not on its own path.
-/
def Nests (r : Registry) (outer inner : List String × String) : Prop :=
  outer.2 ∉ outer.1 ∧ inner.1 = outer.2 :: outer.1 ∧ r.Parent outer.2 inner.2

theorem length_le_namesOff {outer : List String × String} {nested : List (List String × String)}
    (h : (outer :: nested).IsChain r.Nests) : nested.length ≤ (r.namesOff outer.1).length := by
  induction nested generalizing outer with
  | nil => exact Nat.zero_le _
  | cons inner nested ih =>
    obtain ⟨⟨hnew, hpath, m, hm, -⟩, h⟩ := List.isChain_cons_cons.1 h
    have hlt : (r.namesOff inner.1).length < (r.namesOff outer.1).length :=
      hpath ▸ length_namesOff_cons_lt (mem_names_of_find? hm) hnew
    exact Nat.lt_of_le_of_lt (ih h) hlt

/-- Models are never nested more deeply than there are models. -/
theorem length_le_of_isChain_nests {nested : List (List String × String)}
    (h : nested.IsChain r.Nests) : nested.length ≤ r.size + 1 := by
  cases nested with
  | nil => exact Nat.zero_le _
  | cons outer nested =>
    have hoff : (r.namesOff outer.1).length ≤ r.size :=
      (List.length_filter_le _ _).trans_eq (List.length_map _)
    exact Nat.succ_le_succ ((length_le_namesOff h).trans hoff)

/-! ## Cycles -/

/--
**Cycles are found, and nothing else is taken for one.** Collecting never nests models without end,
whatever the registry holds. If all that a model inherits from is registered, then a cycle is
reported for it just if some chain up from it holds a name twice; it flattens otherwise, unless it
has several discriminators.
-/
theorem resolve_cycle_iff (hr : r.Rooted model) :
    (∀ nested : List (List String × String), nested.IsChain r.Nests →
        nested.length ≤ r.size + 1) ∧
      ((∃ n, r.resolve model = .error (.inheritanceCycle n)) ↔
        ∃ names, r.Chain model names ∧ ¬names.Nodup) ∧
      ((∃ n, r.resolve model = .error (.inheritanceCycle n)) ∨
        (∃ found, r.resolve model = .error (.duplicateDiscriminator model.name found)) ∨
        ∃ flat, r.resolve model = .ok flat) := by
  refine ⟨fun nested h => length_le_of_isChain_nests h, ?_⟩
  have hends := collectAll_endsIf hr
  cases hc : r.collectAll model with
  | error e =>
    obtain ⟨⟨n, rfl⟩, hrepeated⟩ := hends.of_error hc
    have hcycle : r.resolve model = .error (.inheritanceCycle n) := by
      rw [resolve, hc]
      rfl
    refine ⟨iff_of_true ⟨n, hcycle⟩ ?_, .inl ⟨n, hcycle⟩⟩
    simpa using hrepeated
  | ok fields =>
    have hclear : ∀ names, r.Chain model names → names.Nodup := hends.of_ok hc
    have hcycle : ¬∃ n, r.resolve model = .error (.inheritanceCycle n) := by
      rintro ⟨n, h⟩
      cases ((resolve_eq_error hc).1 h).2
    have hrepeated : ¬∃ names, r.Chain model names ∧ ¬names.Nodup := by
      rintro ⟨names, hnames, hn⟩
      exact hn (hclear names hnames)
    refine ⟨iff_of_false hcycle hrepeated, .inr ?_⟩
    cases h : r.resolve model with
    | ok flat => exact .inr ⟨flat, rfl⟩
    | error e =>
      obtain ⟨-, rfl⟩ := (resolve_eq_error hc).1 h
      exact .inl ⟨_, rfl⟩

theorem resolve_cycle_iff_ring :
    let r := (empty.put (.inheriting "X" ["Y"] [])).put (.inheriting "Y" ["X"] [])
    let model : Model := .inheriting "Z" ["X", "X"] []
    r.Rooted model ∧ r.Chain model ["Z", "X", "Y", "X"] ∧
      ∃ n, r.resolve model = .error (.inheritanceCycle n) := by
  intro r model
  have hx : r.find? "X" = some (.inheriting "X" ["Y"] []) := by cbv
  have hy : r.find? "Y" = some (.inheriting "Y" ["X"] []) := by cbv
  have hr : r.Rooted model := rooted_of_parents (by decide +kernel) (by decide +kernel)
  have hchain : r.Chain model ["Z", "X", "Y", "X"] :=
    .up List.mem_cons_self hx (.up List.mem_cons_self hy (.up List.mem_cons_self hx (.here _)))
  exact ⟨hr, hchain, (resolve_cycle_iff hr).2.1.2 ⟨_, hchain, by decide⟩⟩

end Registry

end FieldMask
