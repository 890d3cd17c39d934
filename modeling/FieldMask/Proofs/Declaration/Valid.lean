import FieldMask.Proofs.Declaration.Registered
import FieldMask.Proofs.Model.Ancestors

/-!
# Valid documents

A document whose declarations can be read is loaded just if these are `Valid`, and then exactly the
declared names are registered (`load_iff_valid`). Registering the declarations takes distinct names
and parents and sources that are declared before (`legal_of_registerAll`), and it takes no more once
every model has at most one discriminator (`exists_registerAll`). The check at the end asks for the
rest; the fields of clones are checked again, but they have the shapes of declared fields
(`check_registerAll_iff`).
-/

namespace FieldMask

namespace Declaration

open Relation (ReflTransGen)

/-- The names are distinct, and parents and sources are declared before the models that use them. -/
structure Legal (ds : List Declaration) : Prop where
  distinct : (ds.map (·.name)).Nodup
  backward : ∀ (i : Nat) (d : Declaration), ds[i]? = some d → ∀ name ∈ d.parents ++ d.sources,
    ∃ j < i, ∃ d' : Declaration, ds[j]? = some d' ∧ d'.name = name

/-- Every model, with the fields of its ancestors or sources, has at most one discriminator. -/
def Tagged (ds : List Declaration) : Prop :=
  ∀ e ∈ flatTable ds, (Registry.discriminators e.2).length ≤ 1

/-- The declarations of a document that can be loaded. -/
structure Valid (ds : List Declaration) : Prop extends Legal ds where
  tagged : Tagged ds
  /-- Whatever a field refers to is declared, before or after it. -/
  declared : ∀ d ∈ ds, ∀ e ∈ d.ownFields, ∀ name ∈ e.2.references, name ∈ ds.map (·.name)
  /-- The models that a field tells apart by a tag have exactly one ancestor in common. -/
  common : ∀ d ∈ ds, ∀ e ∈ d.ownFields, ∀ mapping, e.2.innermost.shape = .polymorph mapping →
    ∃! n, ∀ name ∈ mapping.values, ReflTransGen (Inherits ds) name n

variable {ds : List Declaration} {d : Declaration}

theorem legal_nil : Legal [] where
  distinct := List.nodup_nil
  backward _ _ h := by cases h

theorem getElem?_append_singleton_eq_some {α : Type} {l : List α} {a b : α} {i : Nat} :
    (l ++ [a])[i]? = some b ↔ l[i]? = some b ∨ i = l.length ∧ a = b := by
  rcases Nat.lt_trichotomy i l.length with hlt | rfl | hgt
  · rw [List.getElem?_append_left hlt]
    simp [Nat.ne_of_lt hlt]
  · simp
  · rw [List.getElem?_eq_none (by simp; omega), List.getElem?_eq_none (by omega)]
    simp [Nat.ne_of_gt hgt]

/-- What is declared before a position does not depend on what comes behind it. -/
theorem declaredBefore_append_iff (d : Declaration) {i : Nat} (hi : i ≤ ds.length) {name : String} :
    (∃ j < i, ∃ d' : Declaration, (ds ++ [d])[j]? = some d' ∧ d'.name = name) ↔
      ∃ j < i, ∃ d' : Declaration, ds[j]? = some d' ∧ d'.name = name := by
  refine exists_congr fun j => and_congr_right fun hj => ?_
  rw [List.getElem?_append_left (Nat.lt_of_lt_of_le hj hi)]

theorem declaredBefore_length_iff {name : String} :
    (∃ j < ds.length, ∃ d' : Declaration, ds[j]? = some d' ∧ d'.name = name) ↔
      name ∈ ds.map (·.name) := by
  rw [List.mem_map]
  constructor
  · rintro ⟨j, -, d', hd', hname⟩
    exact ⟨d', List.mem_of_getElem? hd', hname⟩
  · rintro ⟨d', hd', hname⟩
    obtain ⟨j, hj, hget⟩ := List.getElem_of_mem hd'
    exact ⟨j, hj, d', hget ▸ List.getElem?_eq_getElem hj, hname⟩

/-- One more declaration is legal if its name is new and what it uses is declared before. -/
theorem legal_append_singleton :
    Legal (ds ++ [d]) ↔ Legal ds ∧ d.name ∉ ds.map (·.name) ∧
      ∀ name ∈ d.parents ++ d.sources, name ∈ ds.map (·.name) := by
  have hdistinct : ((ds ++ [d]).map (·.name)).Nodup ↔
      (ds.map (·.name)).Nodup ∧ d.name ∉ ds.map (·.name) := by
    rw [List.map_append, List.map_singleton, ← List.concat_eq_append, List.nodup_concat, and_comm]
  constructor
  · rintro ⟨hnodup, hbackward⟩
    obtain ⟨hnodup, hnew⟩ := hdistinct.1 hnodup
    refine ⟨⟨hnodup, fun i d' hi name hn => ?_⟩, hnew, fun name hn => ?_⟩
    · refine (declaredBefore_append_iff d (List.getElem?_eq_some_iff.1 hi).1.le).1 ?_
      exact hbackward i d' (getElem?_append_singleton_eq_some.2 (.inl hi)) name hn
    · refine declaredBefore_length_iff.1 ((declaredBefore_append_iff d le_rfl).1 ?_)
      exact hbackward ds.length d (getElem?_append_singleton_eq_some.2 (.inr ⟨rfl, rfl⟩)) name hn
  · rintro ⟨⟨hnodup, hbackward⟩, hnew, hnames⟩
    refine ⟨hdistinct.2 ⟨hnodup, hnew⟩, fun i d' hi name hn => ?_⟩
    rcases getElem?_append_singleton_eq_some.1 hi with hi | ⟨rfl, rfl⟩
    · refine (declaredBefore_append_iff d (List.getElem?_eq_some_iff.1 hi).1.le).2 ?_
      exact hbackward i d' hi name hn
    · exact (declaredBefore_append_iff d le_rfl).2 (declaredBefore_length_iff.2 (hnames name hn))

end Declaration

namespace Field

variable {field other : Field}

theorem innermost_shape_of_shape_eq (h : other.shape = field.shape) :
    other.innermost.shape = field.innermost.shape := by
  cases hs : field.shape with
  | list items least most unique =>
    rw [innermost_list hs, innermost_list (h.trans hs)]
  | scalar kind | nested target asList | polymorph mapping =>
    rw [innermost_of_not_list, innermost_of_not_list, h]
    · rw [hs]
      nofun
    · rw [h, hs]
      nofun

end Field

namespace Registry

open Declaration
open Relation (ReflTransGen)

variable {r : Registry} {ds : List Declaration} {d : Declaration} {name : String} {model : Model}

/-! ## Registering -/

/-- Declarations that can be registered are legal. -/
theorem legal_of_registerAll (he : ∀ d ∈ ds, d.Exclusive) (h : empty.registerAll ds = .ok r) :
    Legal ds := by
  induction ds using List.reverseRecOn generalizing r with
  | nil => exact legal_nil
  | append_singleton ds d ih =>
    obtain ⟨he, hd⟩ := List.forall_mem_append.1 he
    obtain ⟨r₁, h₁, hregister⟩ := registerAll_append_singleton.1 h
    obtain ⟨model, hmodel, hdefine⟩ := register_eq_ok.1 hregister
    obtain ⟨hfree, hparents, -⟩ := define_eq_ok.1 hdefine
    have hnames {name : String} : (∃ m, r₁.find? name = some m) ↔ name ∈ ds.map (·.name) :=
      contains_iff.symm.trans (contains_registerAll_iff h₁)
    refine legal_append_singleton.2 ⟨ih he h₁, ?_, fun name hn => hnames.1 ?_⟩
    · rw [← hnames, ← name_of_toModel hmodel, hfree]
      nofun
    · rcases List.mem_append.1 hn with hp | hs
      · rw [parents_of_toModel (hd d (List.mem_singleton_self d)) hmodel] at hparents
        exact (hparents name hp).2
      · obtain ⟨flats, hflats, -⟩ := toModel_eq_ok.1 hmodel
        obtain ⟨flat, -, hflat⟩ := exists_right_of_mem (mapM_eq_ok.1 hflats) hs
        obtain ⟨m, hm, -⟩ := bind_eq_ok.1 hflat
        exact ⟨m, lookup_eq_ok.1 hm⟩

/-- A registered model flattens if the table has at most one discriminator for it. -/
theorem Tabulated.resolves {table : List (String × Fields)} (ht : r.Tabulated table)
    (htag : ∀ e ∈ table, (discriminators e.2).length ≤ 1) (hn : name ∈ Keyed.keys table) :
    ∃ flat, r.resolveName name = .ok flat := by
  obtain ⟨e, he, rfl⟩ := List.mem_map.1 hn
  obtain ⟨fields, ⟨model, hm, ha⟩, halike⟩ := ht e he
  have hle : (discriminators fields).length ≤ 1 := halike.discriminators ▸ htag e he
  rw [resolveName, lookup_eq_ok.2 hm]
  exact ⟨_, resolve_eq_ok.2 ⟨fields, ha, hle, rfl⟩⟩

/-- Legal declarations can be registered if every model has at most one discriminator. -/
theorem exists_registerAll (he : ∀ d ∈ ds, d.Exclusive) (hl : Legal ds) (ht : Tagged ds) :
    ∃ r, empty.registerAll ds = .ok r := by
  induction ds using List.reverseRecOn with
  | nil => exact ⟨empty, rfl⟩
  | append_singleton ds d ih =>
    obtain ⟨he, hd⟩ := List.forall_mem_append.1 he
    obtain ⟨hl, hnew, hnames⟩ := legal_append_singleton.1 hl
    rw [Tagged, flatTable_append_singleton] at ht
    have htag : Tagged ds := (List.forall_mem_append.1 ht).1
    obtain ⟨r, hr⟩ := ih he hl htag
    obtain ⟨hp, hs⟩ := List.forall_mem_append.1 hnames
    obtain ⟨flats, hflats⟩ := exists_mapM_eq_ok (f := r.resolveName) fun name hn =>
      (tabulated_registerAll he hr).resolves htag (keys_flatTable ▸ hs name hn)
    obtain ⟨model, hmodel⟩ : ∃ model, d.toModel r = .ok model :=
      ⟨_, toModel_eq_ok.2 ⟨flats, hflats, rfl⟩⟩
    have hregistered {name : String} : (∃ m, r.find? name = some m) ↔ name ∈ ds.map (·.name) :=
      contains_iff.symm.trans (contains_registerAll_iff hr)
    have hdefine : r.define model = .ok (r.put model) := by
      refine define_eq_ok.2 ⟨?_, fun parent hmem => ?_, rfl⟩
      · refine Option.eq_none_iff_forall_ne_some.2 fun m hm => hnew (hregistered.1 ⟨m, ?_⟩)
        exact name_of_toModel hmodel ▸ hm
      · rw [parents_of_toModel (hd d (List.mem_singleton_self d)) hmodel] at hmem
        rw [name_of_toModel hmodel]
        exact ⟨fun heq => hnew (heq ▸ hp parent hmem), hregistered.2 (hp parent hmem)⟩
    exact ⟨_, registerAll_append_singleton.2 ⟨r, hr, register_eq_ok.2 ⟨model, hmodel, hdefine⟩⟩⟩

/-! ## Checking -/

theorem checkField_of_shape_eq {field other : Field} (h : other.shape = field.shape) :
    r.checkField other = r.checkField field := by
  have hshape := Field.innermost_shape_of_shape_eq h
  rw [checkField, checkField, Field.references, Field.references, checkPolymorph, checkPolymorph,
    hshape]

theorem checkField_eq_ok {field : Field} :
    r.checkField field = .ok () ↔ (∀ name ∈ field.references, r.contains name = true) ∧
      ∀ mapping, field.innermost.shape = .polymorph mapping →
        ∃ ancestor, r.commonAncestor mapping.values = .ok ancestor := by
  have hreferences : (field.references.forM fun name => discard (r.lookup name)) = .ok () ↔
      ∀ name ∈ field.references, r.contains name = true := by
    rw [forM_eq_ok]
    refine forall₂_congr fun name _ => ?_
    rw [discard_eq_ok, contains_iff]
    exact exists_congr fun _ => lookup_eq_ok
  have hpolymorph : r.checkPolymorph field = .ok () ↔
      ∀ mapping, field.innermost.shape = .polymorph mapping →
        ∃ ancestor, r.commonAncestor mapping.values = .ok ancestor := by
    unfold checkPolymorph
    split
    · rename_i mapping hs
      rw [discard_eq_ok]
      refine ⟨fun h mapping' hs' => ?_, fun h => h mapping hs⟩
      exact Shape.polymorph.inj (hs.symm.trans hs') ▸ h
    · rename_i hs
      exact iff_of_true rfl fun mapping hs' => absurd hs' (hs mapping)
  rw [checkField, bind_eq_ok, ← hreferences, ← hpolymorph]
  constructor
  · rintro ⟨_, h⟩
    exact h
  · exact fun h => ⟨(), h⟩

theorem check_eq_ok : r.check = .ok () ↔ ∀ name model, r.find? name = some model →
    (∃ flat, r.resolve model = .ok flat) ∧ ∀ e ∈ model.fields, r.checkField e.2 = .ok () := by
  have hmodel (model : Model) : r.checkModel model = .ok () ↔
      (∃ flat, r.resolve model = .ok flat) ∧ ∀ e ∈ model.fields, r.checkField e.2 = .ok () := by
    rw [checkModel, bind_eq_ok]
    constructor
    · rintro ⟨_, hres, hfields⟩
      exact ⟨discard_eq_ok.1 hres, fun e he => forM_eq_ok.1 hfields e he⟩
    · rintro ⟨hres, hfields⟩
      exact ⟨(), discard_eq_ok.2 hres, forM_eq_ok.2 hfields⟩
  rw [check, forM_eq_ok]
  constructor
  · exact fun h name model hm => (hmodel model).1 (h model (mem_toList_of_find? hm))
  · intro h model hmem
    obtain ⟨name, hm⟩ := exists_find?_of_mem_toList hmem
    exact (hmodel model).2 (h name model hm)

/--
The check of registered declarations asks for one discriminator at most in every model, and looks at
nothing but the declared fields otherwise.
-/
theorem check_registerAll_iff (he : ∀ d ∈ ds, d.Exclusive) (h : empty.registerAll ds = .ok r) :
    r.check = .ok () ↔
      Tagged ds ∧ ∀ d ∈ ds, ∀ e ∈ d.ownFields, r.checkField e.2 = .ok () := by
  have ht : r.Tabulated (flatTable ds) := tabulated_registerAll he h
  rw [check_eq_ok]
  constructor
  · intro hcheck
    refine ⟨fun e hmem => ?_, fun d hd e hmem => ?_⟩
    · obtain ⟨fields, ⟨model, hm, ha⟩, halike⟩ := ht e hmem
      obtain ⟨⟨flat, hflat⟩, -⟩ := hcheck e.1 model hm
      obtain ⟨fields', ha', hle, -⟩ := resolve_eq_ok.1 hflat
      obtain rfl := Except.ok.inj (ha.symm.trans ha')
      exact halike.discriminators ▸ hle
    · obtain ⟨model, hmodel, hm⟩ := (holds_registerAll h).2 d hd
      exact (hcheck d.name model hm).2 e (mem_of_ownFields hmodel hmem)
  · rintro ⟨htag, hfields⟩ name model hm
    have hname : name ∈ Keyed.keys (flatTable ds) :=
      keys_flatTable ▸ (contains_registerAll_iff h).1 (contains_iff.2 ⟨model, hm⟩)
    refine ⟨?_, fun e hmem => ?_⟩
    · obtain ⟨flat, hflat⟩ := ht.resolves htag hname
      rw [resolveName, lookup_eq_ok.2 hm] at hflat
      exact ⟨flat, hflat⟩
    · obtain ⟨d, hd, own, hown, hshape⟩ := shape_registerAll h name model hm e hmem
      rw [checkField_of_shape_eq hshape.symm]
      exact hfields d hd own hown

/-- The check of a field, in terms of what is declared. -/
theorem checkField_registerAll_iff (he : ∀ d ∈ ds, d.Exclusive) (h : empty.registerAll ds = .ok r)
    {field : Field} : r.checkField field = .ok () ↔
      (∀ name ∈ field.references, name ∈ ds.map (·.name)) ∧
        ∀ mapping, field.innermost.shape = .polymorph mapping →
          ∃! n, ∀ name ∈ mapping.values, ReflTransGen (Inherits ds) name n := by
  rw [checkField_eq_ok, forall₂_congr fun _ _ => contains_registerAll_iff h]
  refine and_congr_right fun hnames => forall₂_congr fun mapping hs => ?_
  have hinherits : Inherits ds = r.Parent :=
    funext₂ fun child parent => propext (parent_registerAll_iff he h).symm
  rw [hinherits]
  refine exists_commonAncestor_iff fun name hn => ?_
  have hreference : name ∈ field.references := by
    rw [Field.references, hs]
    exact hn
  obtain ⟨model, hm⟩ :=
    contains_iff.1 ((contains_registerAll_iff h).2 (hnames name hreference))
  obtain ⟨rank, hrank⟩ := (orderly_registerAll h).ranked
  exact hrank.exists_ancestors hm

/-- A document whose declarations can be read is loaded by registering and checking them. -/
theorem load_eq_ok_of_read {document : Json} {values : List (String × Json)}
    (hv : Declaration.valuesOf document = .ok values)
    (hd : values.mapM (fun e => Declaration.read e.1 e.2) = .ok ds) :
    Registry.load document = .ok r ↔ empty.registerAll ds = .ok r ∧ r.check = .ok () := by
  rw [load_eq_ok]
  constructor
  · rintro ⟨values', ds', hv', hd', h⟩
    obtain rfl := Except.ok.inj (hv.symm.trans hv')
    obtain rfl := Except.ok.inj (hd.symm.trans hd')
    exact h
  · exact fun h => ⟨values, ds, hv, hd, h⟩

/--
**Exactly the valid documents are loaded**: if the declarations of a document can be read, then it
is loaded just if they are valid, and the declared names are those that are registered then.
-/
theorem load_iff_valid {document : Json} {values : List (String × Json)}
    (hv : Declaration.valuesOf document = .ok values)
    (hd : values.mapM (fun e => Declaration.read e.1 e.2) = .ok ds) :
    ((∃ r, Registry.load document = .ok r) ↔ Declaration.Valid ds) ∧
      ∀ r, Registry.load document = .ok r → ∀ name,
        r.contains name = true ↔ name ∈ ds.map (·.name) := by
  have hload (r : Registry) : Registry.load document = .ok r ↔
      empty.registerAll ds = .ok r ∧ r.check = .ok () := load_eq_ok_of_read hv hd
  have he : ∀ d ∈ ds, d.Exclusive := by
    intro d hmem
    obtain ⟨value, -, hread⟩ := exists_of_mem_mapM hd hmem
    exact exclusive_of_read hread
  refine ⟨⟨?_, fun hvalid => ?_⟩, fun r hr name => contains_registerAll_iff ((hload r).1 hr).1⟩
  · rintro ⟨r, hr⟩
    obtain ⟨h, hcheck⟩ := (hload r).1 hr
    obtain ⟨htag, hfields⟩ := (check_registerAll_iff he h).1 hcheck
    refine ⟨legal_of_registerAll he h, htag, fun d hd e hmem => ?_, fun d hd e hmem => ?_⟩
    · exact ((checkField_registerAll_iff he h).1 (hfields d hd e hmem)).1
    · exact ((checkField_registerAll_iff he h).1 (hfields d hd e hmem)).2
  · obtain ⟨r, h⟩ := exists_registerAll he hvalid.toLegal hvalid.tagged
    refine ⟨r, (hload r).2 ⟨h, (check_registerAll_iff he h).2 ⟨hvalid.tagged, ?_⟩⟩⟩
    intro d hd e hmem
    exact (checkField_registerAll_iff he h).2
      ⟨hvalid.declared d hd e hmem, hvalid.common d hd e hmem⟩

theorem load_iff_valid_menagerie :
    ∃ values ds r, Declaration.valuesOf menagerie = .ok values ∧
      values.mapM (fun e => Declaration.read e.1 e.2) = .ok ds ∧
      Registry.load menagerie = .ok r ∧ Declaration.Valid ds ∧
      r.contains "Keeper" = true ∧ "Keeper" ∈ ds.map (·.name) := by
  have h : ((Registry.load menagerie).toOption.any fun r => r.contains "Keeper") = true := by
    cbv
  obtain ⟨r, hl, hname⟩ := exists_of_any_toOption h
  obtain ⟨values, ds, hv, hd, -⟩ := load_eq_ok.1 hl
  obtain ⟨hvalid, hnames⟩ := load_iff_valid hv hd
  exact ⟨values, ds, r, hv, hd, hl, hvalid.1 ⟨r, hl⟩, hname, (hnames r hl "Keeper").1 hname⟩

end Registry

end FieldMask
