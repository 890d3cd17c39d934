import FieldMask.Proofs.Model.Masked
import FieldMask.Proofs.Model.Ranked
import Mathlib.Data.List.Perm.Basic

/-!
# Larger registries

A registry extends another one if it has every model of it, under the same name and perhaps among
others. Nested fields may refer to models that are yet to come, so the larger registry can answer
where the smaller one fails; but whatever the smaller one answers, the larger one does too
(`Extends.resolve`, `Extends.commonAncestor`, `Extends.maskFlat`). A registered model whose fields
are collected in the smaller registry flattens alike in both, also where it is refused
(`Extends.resolve_eq`).
-/

namespace FieldMask

/-- Fields are narrowed alike by what answers alike. -/
theorem Field.keeps_narrow {selection : List Selector} {place : Pointer}
    {below below' : Target → Except MaskError Model}
    (h : ∀ target, Keeps (below target) (below' target)) :
    (field : Field) →
      Keeps (field.narrow selection place below) (field.narrow selection place below')
  | { shape := .list items _ _ _, .. } => (keeps_narrow h items).bind fun _ _ => Keeps.refl _
  | { shape := .scalar _, .. } => Keeps.refl _
  | { shape := .nested target _, .. } => (h target).bind fun _ _ => Keeps.refl _
  | { shape := .polymorph _, .. } => Keeps.refl _

namespace Registry

/-- Every model of the first registry is in the second one, under the same name. -/
def Extends (r r' : Registry) : Prop :=
  ∀ name model, r.find? name = some model → r'.find? name = some model

variable {r r' r'' : Registry} {name : String} {model : Model}

theorem Extends.refl (r : Registry) : r.Extends r := fun _ _ h => h

theorem Extends.trans (h : r.Extends r') (h' : r'.Extends r'') : r.Extends r'' :=
  fun name model hm => h' name model (h name model hm)

theorem extends_put (hfree : r.find? model.name = none) : r.Extends (r.put model) := by
  intro name m hm
  rw [find?_put, if_neg]
  · exact hm
  · rintro rfl
    cases hfree.symm.trans hm

/-! ## Flattening -/

theorem Extends.lookup (h : r.Extends r') (name : String) :
    Keeps (r.lookup name) (r'.lookup name) :=
  fun model hm => lookup_eq_ok.2 (h name model (lookup_eq_ok.1 hm))

theorem Extends.collect (h : r.Extends r') (path : List String) (name : String) (fields : Fields) :
    Keeps (r.collect path name fields) (r'.collect path name fields) := by
  induction path, name, fields using Registry.collect.induct (r := r) with
  | case1 path name fields hr =>
    intro out ho
    obtain ⟨-, m, hm, -⟩ := collect_eq_ok.1 ho
    cases hr.symm.trans hm
  | case2 path name fields m hr hp =>
    intro out ho
    exact absurd hp (collect_eq_ok.1 ho).1
  | case3 path name fields m hr hp ih =>
    intro out ho
    obtain ⟨-, m', hm', inherited, hi, rfl⟩ := collect_eq_ok.1 ho
    obtain rfl := Option.some.inj (hr.symm.trans hm')
    refine collect_eq_ok.2 ⟨hp, m, h name m hr, inherited, ?_, rfl⟩
    exact keeps_foldlM fields (fun acc parent _ => ih acc parent) inherited hi

theorem Extends.collectAll (h : r.Extends r') (model : Model) :
    Keeps (r.collectAll model) (r'.collectAll model) := by
  refine (keeps_foldlM [] fun acc parent _ => ?_).bind fun _ _ => Keeps.refl _
  exact h.collect [model.name] parent acc

/-- A model whose fields are collected flattens alike, if it does. -/
theorem Extends.resolve_eq (h : r.Extends r') {fields : Fields}
    (hc : r.collectAll model = .ok fields) : r'.resolve model = r.resolve model := by
  rw [Registry.resolve, Registry.resolve, hc, h.collectAll model fields hc]

theorem Extends.resolve (h : r.Extends r') (model : Model) :
    Keeps (r.resolve model) (r'.resolve model) :=
  (h.collectAll model).bind fun _ _ => Keeps.refl _

theorem Extends.resolveName (h : r.Extends r') (name : String) :
    Keeps (r.resolveName name) (r'.resolveName name) :=
  (h.lookup name).bind fun model _ => h.resolve model

theorem Extends.resolveTarget (h : r.Extends r') (target : Target) :
    Keeps (r.resolveTarget target) (r'.resolveTarget target) := by
  cases target with
  | named name => exact h.resolveName name
  | masked model => exact h.resolve model

/-! ## Ancestors -/

theorem Extends.reach (h : r.Extends r') (seen pending : List String) :
    Keeps (r.reach seen pending) (r'.reach seen pending) := by
  induction seen, pending using Registry.reach.induct (r := r) with
  | case1 seen =>
    rw [Registry.reach, Registry.reach]
    exact Keeps.refl _
  | case2 seen name rest hseen ih =>
    rw [reach_of_mem hseen, reach_of_mem hseen]
    exact ih
  | case3 seen name rest hseen hnone =>
    rw [reach_of_none hseen hnone]
    intro out hout
    cases hout
  | case4 seen name rest hseen model hm ih =>
    rw [reach_of_find? hseen hm, reach_of_find? hseen (h name model hm)]
    exact ih

/-- All that is reached is registered. -/
theorem find?_of_mem_reach {seen pending out : List String} (h : r.reach seen pending = .ok out) :
    ∀ n ∈ out, n ∈ seen ∨ ∃ m, r.find? n = some m := by
  refine reach_induct (P := fun seen _ => ∀ n ∈ out, n ∈ seen ∨ ∃ m, r.find? n = some m) h
    (fun n hn => .inl hn) (fun _ _ _ _ ih => ih) ?visit
  case visit =>
    intro seen name rest model hm ih n hn
    rcases ih n hn with hmem | hn
    · rcases List.mem_cons.1 hmem with rfl | hmem
      · exact .inr ⟨model, hm⟩
      · exact .inl hmem
    · exact .inr hn

theorem ascending_names (r : Registry) : r.names.Pairwise (· < ·) :=
  List.pairwise_map.2 r.models.ascending

theorem mem_names_iff : name ∈ r.names ↔ ∃ m, r.find? name = some m := by
  refine ⟨fun h => ?_, fun ⟨m, hm⟩ => mem_names_of_find? hm⟩
  obtain ⟨e, he, rfl⟩ := List.mem_map.1 h
  exact ⟨e.2, find?_of_mem he⟩

/-- Ascending lists with the same members are equal. -/
theorem eq_of_ascending {l l' : List String} (h : l.Pairwise (· < ·)) (h' : l'.Pairwise (· < ·))
    (hmem : ∀ n, n ∈ l ↔ n ∈ l') : l = l' := by
  have hperm : l.Perm l' :=
    (List.perm_ext_iff_of_nodup (h.imp Std.ne_of_lt) (h'.imp Std.ne_of_lt)).2 hmem
  exact hperm.eq_of_pairwise (fun a b _ _ hab hba => absurd hba (String.lt_asymm hab)) h h'

theorem Extends.ancestors (h : r.Extends r') (name : String) :
    Keeps (r.ancestors name) (r'.ancestors name) := by
  refine (h.reach [] [name]).bind fun seen hseen => ?_
  have heq : r.names.filter (fun n => seen.contains n)
      = r'.names.filter (fun n => seen.contains n) := by
    refine eq_of_ascending (r.ascending_names.filter _) (r'.ascending_names.filter _) fun n => ?_
    rw [List.mem_filter, List.mem_filter, mem_names_iff, mem_names_iff, List.contains_iff_mem]
    refine and_congr_left fun hn => ?_
    obtain ⟨m, hm⟩ := (find?_of_mem_reach hseen n hn).resolve_left List.not_mem_nil
    exact iff_of_true ⟨m, hm⟩ ⟨m, h n m hm⟩
  rw [heq]
  exact Keeps.refl _

theorem Extends.commonAncestor (h : r.Extends r') (names : List String) :
    Keeps (r.commonAncestor names) (r'.commonAncestor names) := by
  refine (keeps_mapM fun name _ => h.ancestors name).bind fun sets _ => ?_
  dsimp only
  split
  · exact h.lookup _
  · exact Keeps.refl _

/-! ## Masks -/

variable {skipMissing : Bool}

/-- Flat models are masked alike. -/
theorem Extends.maskFlat (h : r.Extends r') (selection : List Selector) (place : Pointer)
    (flat : FlatModel) :
    Keeps (r.maskFlat skipMissing selection place flat)
      (r'.maskFlat skipMissing selection place flat) := by
  unfold Registry.maskFlat
  rw [pickFields_eq_foldlM, pickFields_eq_foldlM]
  refine (keeps_foldlM [] fun picked s hmem => ?_).bind fun _ _ => Keeps.refl _
  by_cases hs : s = .wildcard
  · subst hs
    rw [pickField_wildcard, pickField_wildcard]
    exact Keeps.refl _
  · rw [pickField_eq hs, pickField_eq hs]
    split
    · exact Keeps.refl _
    · rename_i field _
      have hselect : Keeps (r.selectFrom skipMissing place field s)
          (r'.selectFrom skipMissing place field s) := by
        cases s with
        | wildcard => exact Keeps.refl _
        | leaf name => exact Keeps.refl _
        | nested name children =>
          refine Field.keeps_narrow (fun target => ?_) field
          have := Selector.sizeOf_children_lt hmem
          refine ((h.resolveTarget target).mapError _ _).bind fun below _ => ?_
          exact h.maskFlat children (place.child name) below
      exact hselect.bind fun _ _ => Keeps.refl _
termination_by sizeOf selection

end Registry

end FieldMask
