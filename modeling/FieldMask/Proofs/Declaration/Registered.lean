import FieldMask.Proofs.Declaration.Order
import FieldMask.Proofs.Model.Lineage
import FieldMask.Proofs.Model.Merging

/-!
# What declarations make of a registry

A registry in which declarations were registered holds a model for each of them and no other: the
declared names are registered (`contains_registerAll_iff`), and a model has the parents that are
declared for it (`parent_registerAll_iff`). Its own fields have the shapes of declared ones, copied
or not (`shape_registerAll`), and with its ancestors it has the fields that the table of the
declarations has for it, but for the defaults of discriminators (`tabulated_registerAll`).
-/

namespace FieldMask

/-! ## What is declared -/

namespace Declaration

/-- The model is not both a child of others and a clone of others. -/
def Exclusive (d : Declaration) : Prop := d.parents = [] ∨ d.sources = []

/-- The one name is declared for a model that inherits from the other. -/
def Inherits (ds : List Declaration) (child parent : String) : Prop :=
  ∃ d ∈ ds, d.name = child ∧ parent ∈ d.parents

/--
The fields of a declared model, over those of the models above it: the fields of what it inherits
from or is cloned from, in order, and then its own. A later field replaces an earlier one of the
same name where it stands.
-/
def flatFields (above : List (String × Fields)) (d : Declaration) : Fields :=
  Keyed.ofPairs <|
    (d.parents ++ d.sources).flatMap (fun name => (above.lookup name).getD []) ++ d.fields

/-- The declared models with all of their fields, in order. -/
def flatTable (ds : List Declaration) : List (String × Fields) :=
  ds.foldl (fun above d => above ++ [(d.name, flatFields above d)]) []

variable {ds : List Declaration} {d : Declaration} {name : String}

theorem flatTable_append_singleton :
    flatTable (ds ++ [d]) = flatTable ds ++ [(d.name, flatFields (flatTable ds) d)] := by
  rw [flatTable, List.foldl_append]
  rfl

@[simp] theorem keys_flatTable : Keyed.keys (flatTable ds) = ds.map (·.name) := by
  induction ds using List.reverseRecOn with
  | nil => rfl
  | append_singleton ds d ih =>
    rw [flatTable_append_singleton, Keyed.keys_append, ih, List.map_append]
    rfl

theorem exclusive_of_read {path : String} {value : Json} (h : read path value = .ok d) :
    d.Exclusive := by
  obtain ⟨declared, -, h⟩ := bind_eq_ok.1 h
  dsimp only at h
  split at h
  · cases h
  · rename_i hboth
    obtain ⟨mask, -, h⟩ := bind_eq_ok.1 h
    obtain ⟨fields, -, h⟩ := bind_eq_ok.1 h
    obtain rfl := pure_eq_ok.1 h
    simpa [Exclusive, or_iff_not_imp_left] using hboth

theorem parents_of_toModel {r : Registry} (hd : d.Exclusive) {model : Model}
    (h : d.toModel r = .ok model) : model.parents = d.parents := by
  obtain ⟨flats, -, rfl⟩ := toModel_eq_ok.1 h
  rcases hd with hp | hs
  · simp [hp]
  · simp [hs]

end Declaration

/-- Fields of the same names, in the same order, that are discriminators alike. -/
def Fields.Alike : Fields → Fields → Prop :=
  Keyed.Related fun _ field other => field.discriminator = other.discriminator

theorem Fields.Alike.refl (fields : Fields) : Alike fields fields :=
  List.forall₂_same.2 fun _ _ => ⟨rfl, rfl⟩

theorem Fields.Alike.trans {fields others more : Fields} (h : Alike fields others)
    (h' : Alike others more) : Alike fields more := by
  induction h generalizing more with
  | nil => exact h'
  | cons hab _ ih =>
    cases h' with
    | cons hbc h' => exact .cons ⟨hab.1.trans hbc.1, hab.2.trans hbc.2⟩ (ih h')

theorem Fields.Alike.discriminators {fields others : Fields} (h : Alike fields others) :
    Registry.discriminators fields = Registry.discriminators others := by
  induction h with
  | nil => rfl
  | @cons a b _ _ hab _ ih =>
    obtain ⟨k, f⟩ := a
    obtain ⟨k', g⟩ := b
    obtain ⟨rfl, hfg⟩ : k = k' ∧ f.discriminator = g.discriminator := hab
    rw [Registry.discriminators, Registry.discriminators] at ih ⊢
    rw [List.filter_cons, List.filter_cons]
    dsimp only
    rw [hfg]
    split
    · rw [List.map_cons, List.map_cons, ih]
    · exact ih

namespace Registry

open Declaration

variable {r r' : Registry} {ds : List Declaration} {d : Declaration} {name : String} {model : Model}

/-! ## Names, parents and shapes -/

theorem registerAll_append_singleton :
    r.registerAll (ds ++ [d]) = .ok r' ↔
      ∃ r₁, r.registerAll ds = .ok r₁ ∧ d.register r₁ = .ok r' := by
  rw [registerAll, List.foldlM_append, bind_eq_ok]
  refine exists_congr fun r₁ => and_congr_right fun _ => ?_
  simp

theorem orderly_registerAll (h : empty.registerAll ds = .ok r) : r.Orderly :=
  foldlM_induct (P := Registry.Orderly) (fun _ _ _ _ hr h => orderly_register hr h)
    Call.orderly_empty h

/-- Every registered model is the one that a declaration of its name makes. -/
theorem exists_of_registerAll (h : empty.registerAll ds = .ok r) (hm : r.find? name = some model) :
    ∃ d ∈ ds, d.name = name ∧ d.toModel r = .ok model := by
  have hnames : ∀ name model, r.find? name = some model → ∃ d ∈ ds, d.name = name := by
    refine foldlM_induct (P := fun r => ∀ name model, r.find? name = some model →
      ∃ d ∈ ds, d.name = name) (fun r d hd r' hr h name m hm => ?_) (fun _ _ hm => by cases hm) h
    obtain ⟨flats, -, model, hname, -, rfl⟩ := exists_put_of_register h
    rw [find?_put] at hm
    split at hm
    · rename_i heq
      exact ⟨d, hd, hname.symm.trans heq.symm⟩
    · exact hr name m hm
  obtain ⟨d, hd, rfl⟩ := hnames name model hm
  obtain ⟨model', hmodel, hm'⟩ := (holds_registerAll h).2 d hd
  obtain rfl := Option.some.inj (hm.symm.trans hm')
  exact ⟨d, hd, rfl, hmodel⟩

/-- The declared names are registered, and no others. -/
theorem contains_registerAll_iff (h : empty.registerAll ds = .ok r) :
    r.contains name = true ↔ name ∈ ds.map (·.name) := by
  rw [contains_iff, List.mem_map]
  constructor
  · rintro ⟨model, hm⟩
    obtain ⟨d, hd, hname, -⟩ := exists_of_registerAll h hm
    exact ⟨d, hd, hname⟩
  · rintro ⟨d, hd, rfl⟩
    obtain ⟨model, -, hm⟩ := (holds_registerAll h).2 d hd
    exact ⟨model, hm⟩

/-- Models have the parents that are declared for them. -/
theorem parent_registerAll_iff (he : ∀ d ∈ ds, d.Exclusive) (h : empty.registerAll ds = .ok r)
    {parent : String} : r.Parent name parent ↔ Inherits ds name parent := by
  constructor
  · rintro ⟨model, hm, hmem⟩
    obtain ⟨d, hd, hname, hmodel⟩ := exists_of_registerAll h hm
    exact ⟨d, hd, hname, parents_of_toModel (he d hd) hmodel ▸ hmem⟩
  · rintro ⟨d, hd, rfl, hmem⟩
    obtain ⟨model, hmodel, hm⟩ := (holds_registerAll h).2 d hd
    exact ⟨model, hm, (parents_of_toModel (he d hd) hmodel).symm ▸ hmem⟩

/-- Every own field, copied or not, has the shape of a declared one. -/
theorem shape_registerAll (h : empty.registerAll ds = .ok r) :
    r.Own fun field => ∃ d ∈ ds, ∃ e ∈ d.ownFields, e.2.shape = field.shape := by
  refine foldlM_induct (P := Registry.Own fun field => ∃ d ∈ ds, ∃ e ∈ d.ownFields,
    e.2.shape = field.shape) (fun r d hd r' hr h => ?_) own_empty h
  refine own_register ?_ hr (fun e he => ⟨d, hd, e, he, rfl⟩) h
  rintro field other ⟨d, hd, e, he, hs⟩ hshape
  exact ⟨d, hd, e, he, hs.trans hshape.symm⟩

/-- A declared field is an own field of its model, whatever the model is cloned from. -/
theorem mem_of_ownFields (h : d.toModel r = .ok model) {e : String × Field} (he : e ∈ d.ownFields) :
    e ∈ model.fields := by
  obtain ⟨flats, -, rfl⟩ := toModel_eq_ok.1 h
  exact Keyed.mem_putAll_of_mem_ofPairs he

/-! ## Fields with those of all ancestors -/

theorem Extends.collects (h : r.Extends r') {fields : Fields} (hc : r.Collects name fields) :
    r'.Collects name fields := by
  obtain ⟨model, hm, ha⟩ := hc
  exact ⟨model, h name model hm, h.collectAll model fields ha⟩

/-- The table has the fields of each of its models, but for the defaults of discriminators. -/
def Tabulated (r : Registry) (table : List (String × Fields)) : Prop :=
  ∀ e ∈ table, ∃ fields, r.Collects e.1 fields ∧ fields.Alike e.2

variable {table : List (String × Fields)}

theorem Tabulated.extends (ht : r.Tabulated table) (h : r.Extends r') : r'.Tabulated table := by
  intro e he
  obtain ⟨fields, hc, ha⟩ := ht e he
  exact ⟨fields, h.collects hc, ha⟩

theorem Tabulated.lookup (ht : r.Tabulated table) (hn : name ∈ Keyed.keys table) :
    ∃ fields, r.Collects name fields ∧ fields.Alike ((table.lookup name).getD []) := by
  cases hl : table.lookup name with
  | none => exact absurd hn (Keyed.lookup_eq_none_iff.1 hl)
  | some fields => exact ht _ (Keyed.mem_of_lookup hl)

theorem Tabulated.lookupAll (ht : r.Tabulated table) {names : List String}
    (hn : ∀ name ∈ names, name ∈ Keyed.keys table) :
    ∃ below, List.Forall₂ r.Collects names below ∧
      Fields.Alike below.flatten (names.flatMap fun name => (table.lookup name).getD []) := by
  induction names with
  | nil => exact ⟨[], .nil, .nil⟩
  | cons name names ih =>
    obtain ⟨hname, hnames⟩ := List.forall_mem_cons.1 hn
    obtain ⟨fields, hc, ha⟩ := ht.lookup hname
    obtain ⟨below, hbelow, halike⟩ := ih hnames
    exact ⟨fields :: below, .cons hc hbelow, List.rel_append ha halike⟩

/-- What is copied of a flat model are the fields that it collects, but for their defaults. -/
theorem alike_copy {flat : FlatModel} (h : r.resolveName name = .ok flat) {fields : Fields}
    (hc : r.Collects name fields) :
    Fields.Alike (flat.fields.map fun (n, f) =>
      (n, if f.discriminator then { f with default := none } else f)) fields := by
  obtain ⟨model, hm, ha⟩ := hc
  rw [resolveName, lookup_eq_ok.2 hm] at h
  obtain ⟨fields', ha', -, rfl⟩ := resolve_eq_ok.1 h
  obtain rfl := Except.ok.inj (ha.symm.trans ha')
  rw [stamp_eq_map, List.map_map]
  refine List.forall₂_map_left_iff.2 (List.forall₂_same.2 fun e _ => ⟨rfl, ?_⟩)
  dsimp only [Function.comp]
  split <;> exact Field.stamped_discriminator

theorem alike_copies {names : List String} {flats : List FlatModel} {below : List Fields}
    (h : names.mapM r.resolveName = .ok flats) (hb : List.Forall₂ r.Collects names below) :
    Fields.Alike (flats.flatMap fun flat => flat.fields.map fun (n, f) =>
      (n, if f.discriminator then { f with default := none } else f)) below.flatten := by
  have hflats := mapM_eq_ok.1 h
  clear h
  induction hflats generalizing below with
  | nil =>
    cases hb
    exact .nil
  | cons hflat _ ih =>
    cases hb with
    | cons hc hb => exact List.rel_append (alike_copy hflat hc) (ih hb)

/-- A declaration that is registered adds its model with the fields that the table gives for it. -/
theorem Tabulated.register (ht : r.Tabulated table)
    (hkeys : ∀ name, r.contains name = true → name ∈ Keyed.keys table) (hr' : r'.Orderly)
    (he : d.Exclusive) (h : d.register r = .ok r') :
    ∃ fields, r'.Collects d.name fields ∧ fields.Alike (flatFields table d) := by
  have hext : r.Extends r' := (extends_register h).1
  obtain ⟨model, hmodel, hm⟩ := (extends_register h).2
  obtain ⟨model₀, hmodel₀, hdefine⟩ := register_eq_ok.1 h
  obtain rfl := Except.ok.inj ((hext.toModel d model₀ hmodel₀).symm.trans hmodel)
  have hparents : model₀.parents = d.parents := parents_of_toModel he hmodel
  obtain ⟨flats, hflats, hmodelEq⟩ := toModel_eq_ok.1 hmodel₀
  have hfields : model₀.fields = Keyed.putAll (copyFields flats) d.fields := hmodelEq ▸ rfl
  obtain ⟨below, hbelow, halike⟩ := ht.lookupAll fun parent hp =>
    hkeys parent (contains_iff.2 ((define_eq_ok.1 hdefine).2.1 parent (hparents ▸ hp)).2)
  obtain ⟨copied, hcopied, hcopies⟩ := ht.lookupAll fun source hs => by
    obtain ⟨flat, -, hflat⟩ := exists_right_of_mem (mapM_eq_ok.1 hflats) hs
    obtain ⟨m, hm, -⟩ := bind_eq_ok.1 hflat
    exact hkeys source (contains_iff.2 ⟨m, lookup_eq_ok.1 hm⟩)
  obtain ⟨rank, hrank⟩ := hr'.ranked
  obtain ⟨fields, ha⟩ := hrank.exists_collectAll hm
  refine ⟨fields, ⟨model₀, hm, ha⟩, ?_⟩
  have hbelow' : List.Forall₂ r'.Collects model₀.parents below := by
    rw [hparents]
    exact hbelow.imp fun _ _ hc => hext.collects hc
  -- on both sides: what the parents have, what the sources have, and what is declared
  rw [← collectAll_eq_ofPairs hbelow' ha, hfields, flatFields, List.flatMap_append, copyFields]
  show Fields.Alike (Keyed.putAll [] (_ ++ Keyed.putAll _ _)) (Keyed.putAll [] (_ ++ _ ++ _))
  rw [Keyed.putAll_append, Keyed.putAll_putAll Keyed.nodup_keys_ofPairs, Keyed.putAll_ofPairs,
    Keyed.putAll_append, Keyed.putAll_append]
  refine Keyed.Related.putAll (Keyed.Related.putAll (Keyed.Related.putAll .nil halike) ?_) ?_
  · exact (alike_copies hflats hcopied).trans hcopies
  · exact Fields.Alike.refl d.fields

/-- **The table of the declarations has the fields of all models** with those of ancestors. -/
theorem tabulated_registerAll (he : ∀ d ∈ ds, d.Exclusive) (h : empty.registerAll ds = .ok r) :
    r.Tabulated (flatTable ds) := by
  induction ds using List.reverseRecOn generalizing r with
  | nil => exact List.forall_mem_nil _
  | append_singleton ds d ih =>
    obtain ⟨he, hd⟩ := List.forall_mem_append.1 he
    obtain ⟨r₁, h₁, hregister⟩ := registerAll_append_singleton.1 h
    rw [flatTable_append_singleton]
    refine List.forall_mem_append.2 ⟨(ih he h₁).extends (extends_register hregister).1, ?_⟩
    refine List.forall_mem_singleton.2 ?_
    refine (ih he h₁).register (fun name hname => ?_) (orderly_registerAll h) ?_ hregister
    · rw [keys_flatTable]
      exact (contains_registerAll_iff h₁).1 hname
    · exact hd d (List.mem_singleton_self d)

end Registry

end FieldMask
