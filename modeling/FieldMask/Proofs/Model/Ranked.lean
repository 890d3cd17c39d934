import FieldMask.Model.Ancestry
import FieldMask.Proofs.Model.Flat
import Mathlib.Algebra.Order.BigOperators.Group.List
import Mathlib.Algebra.Order.Group.Nat
import Mathlib.Logic.Relation

/-!
# Ranks of models

A registry is ranked if every parent of a registered model is registered and ranks below it. Then no
chain of parents comes back to where it began (`Ranked.acyclic`), and going through the ancestors of
a registered model finds every one of them, on whatever way it goes: the fields of a model are
collected (`Ranked.exists_collectAll`) and its ancestors are listed (`Ranked.exists_ancestors`).
-/

namespace FieldMask

namespace Registry

/-- The one name is registered for a model that has the other as a parent. -/
def Parent (r : Registry) (child parent : String) : Prop :=
  ∃ model, r.find? child = some model ∧ parent ∈ model.parents

/-- Every parent is registered and ranks below the models that it is a parent of. -/
structure Ranked (r : Registry) (rank : String → Nat) : Prop where
  registered : ∀ {child parent}, r.Parent child parent → ∃ model, r.find? parent = some model
  descends : ∀ {child parent}, r.Parent child parent → rank parent < rank child

variable {r : Registry} {rank : String → Nat} {name : String} {model : Model}

theorem ranked_empty (rank : String → Nat) : Registry.empty.Ranked rank where
  registered h := by cases h.choose_spec.1
  descends h := by cases h.choose_spec.1

/-! ## Chains of parents -/

theorem Ranked.descends_chain (h : r.Ranked rank) {child ancestor : String}
    (hc : Relation.TransGen r.Parent child ancestor) : rank ancestor < rank child := by
  induction hc with
  | single hp => exact h.descends hp
  | tail _ hp ih => exact Nat.lt_trans (h.descends hp) ih

/-- No chain of parents comes back to where it began. -/
theorem Ranked.acyclic (h : r.Ranked rank) (name : String) :
    ¬Relation.TransGen r.Parent name name :=
  fun hc => Nat.lt_irrefl _ (h.descends_chain hc)

/-- A model under a new name, whose parents are registered, ranks above all of them. -/
theorem Ranked.put (h : r.Ranked rank) (hfree : r.find? model.name = none)
    (hp : ∀ parent ∈ model.parents, ∃ m, r.find? parent = some m) :
    ∃ rank, (r.put model).Ranked rank := by
  have hold {child parent : String} (hparent : (r.put model).Parent child parent) :
      (child = model.name ∧ parent ∈ model.parents ∨ child ≠ model.name ∧ r.Parent child parent) ∧
        ∃ m, r.find? parent = some m := by
    obtain ⟨m, hm, hmem⟩ := hparent
    rw [find?_put] at hm
    by_cases hc : child = model.name
    · rw [if_pos hc] at hm
      obtain rfl := Option.some.inj hm
      exact ⟨.inl ⟨hc, hmem⟩, hp parent hmem⟩
    · rw [if_neg hc] at hm
      exact ⟨.inr ⟨hc, m, hm, hmem⟩, h.registered ⟨m, hm, hmem⟩⟩
  have hnew {parent : String} (hm : ∃ m, r.find? parent = some m) : parent ≠ model.name := by
    rintro rfl
    obtain ⟨m, hm⟩ := hm
    cases hfree.symm.trans hm
  -- the sum of their ranks bounds that of each parent, and nothing has the new name as a parent yet
  refine ⟨fun n => if n = model.name then (model.parents.map rank).sum + 1 else rank n, ?_, ?_⟩
  · intro child parent hparent
    obtain ⟨-, m, hm⟩ := hold hparent
    exact ⟨m, by rw [find?_put, if_neg (hnew ⟨m, hm⟩), hm]⟩
  · intro child parent hparent
    obtain ⟨hcases, hm⟩ := hold hparent
    rw [if_neg (hnew hm)]
    rcases hcases with ⟨hc, hmem⟩ | ⟨hc, hparent⟩
    · rw [if_pos hc]
      exact Nat.lt_succ_of_le (List.le_sum_of_mem (List.mem_map_of_mem hmem))
    · rw [if_neg hc]
      exact h.descends hparent

/-! ## Going through the ancestors -/

/-- A registered model is collected below models that all rank above it. -/
theorem Ranked.exists_collect (h : r.Ranked rank) {name : String} {model : Model}
    (hm : r.find? name = some model) {path : List String} (hp : ∀ n ∈ path, rank name < rank n)
    (fields : Fields) : ∃ out, r.collect path name fields = .ok out := by
  have hnew : name ∉ path := fun hmem => Nat.lt_irrefl _ (hp name hmem)
  have hparents : ∃ inherited, model.parents.foldlM
      (fun acc parent => r.collect (name :: path) parent acc) fields = .ok inherited := by
    refine exists_foldlM_eq_ok fun acc parent hmem => ?_
    have hparent : r.Parent name parent := ⟨model, hm, hmem⟩
    obtain ⟨m, hm⟩ := h.registered hparent
    have := h.descends hparent
    refine h.exists_collect hm (List.forall_mem_cons.2 ⟨this, fun n hn => ?_⟩) acc
    exact Nat.lt_trans this (hp n hn)
  obtain ⟨inherited, hi⟩ := hparents
  exact ⟨_, collect_eq_ok.2 ⟨hnew, model, hm, inherited, hi, rfl⟩⟩
termination_by rank name

theorem Ranked.exists_collectAll (h : r.Ranked rank) (hm : r.find? name = some model) :
    ∃ fields, r.collectAll model = .ok fields := by
  refine exists_collectAll_of_parents fun acc parent hmem => ?_
  have hparent : r.Parent name parent := ⟨model, hm, hmem⟩
  obtain ⟨m, hparentm⟩ := h.registered hparent
  refine h.exists_collect hparentm (List.forall_mem_singleton.2 ?_) acc
  rw [name_of_find? hm]
  exact h.descends hparent

/-- A registered model fails to flatten for several discriminators alone. -/
theorem Ranked.resolveName_eq_error (h : r.Ranked rank) (hm : r.find? name = some model)
    {e : ModelError} (he : r.resolveName name = .error e) :
    ∃ fields, e = .duplicateDiscriminator name fields := by
  obtain ⟨fields, hfields⟩ := h.exists_collectAll hm
  rw [resolveName, lookup_eq_ok.2 hm, bind_ok, resolve_eq_error hfields, name_of_find? hm] at he
  exact ⟨_, he.2⟩

theorem reach_of_mem {seen rest : List String} (h : name ∈ seen) :
    r.reach seen (name :: rest) = r.reach seen rest := by
  rw [reach, dif_pos h]

theorem reach_of_find? {seen rest : List String} (h : name ∉ seen)
    (hm : r.find? name = some model) :
    r.reach seen (name :: rest) = r.reach (name :: seen) (model.parents.reverse ++ rest) := by
  rw [reach, dif_neg h]
  split
  · rename_i hnone
    cases hnone.symm.trans hm
  · rename_i m hm'
    obtain rfl := Option.some.inj (hm.symm.trans hm')
    rfl

theorem reach_of_none {seen rest : List String} (h : name ∉ seen) (hm : r.find? name = none) :
    r.reach seen (name :: rest) = .error (.unknownModel name) := by
  rw [reach, dif_neg h]
  split
  · rfl
  · rename_i m hm'
    cases hm.symm.trans hm'

/-- What holds of all that is found holds of every step that leads there. -/
theorem reach_induct {P : List String → List String → Prop} {seen pending out : List String}
    (h : r.reach seen pending = .ok out) (done : P out [])
    (skip : ∀ seen name rest, name ∈ seen → P seen rest → P seen (name :: rest))
    (visit : ∀ seen name rest model, r.find? name = some model →
      P (name :: seen) (model.parents.reverse ++ rest) → P seen (name :: rest)) :
    P seen pending := by
  induction seen, pending using Registry.reach.induct (r := r) with
  | case1 seen =>
    rw [reach] at h
    exact Except.ok.inj h ▸ done
  | case2 seen name rest hseen ih =>
    rw [reach_of_mem hseen] at h
    exact skip seen name rest hseen (ih h)
  | case3 seen name rest hseen hnone =>
    rw [reach_of_none hseen hnone] at h
    cases h
  | case4 seen name rest hseen model hm ih =>
    rw [reach_of_find? hseen hm] at h
    exact visit seen name rest model hm (ih h)

theorem Ranked.exists_reach (h : r.Ranked rank) {seen pending : List String}
    (hp : ∀ name ∈ pending, ∃ model, r.find? name = some model) :
    ∃ out, r.reach seen pending = .ok out := by
  induction seen, pending using Registry.reach.induct (r := r) with
  | case1 seen =>
    rw [reach]
    exact ⟨seen, rfl⟩
  | case2 seen name rest hseen ih =>
    rw [reach_of_mem hseen]
    exact ih (List.forall_mem_cons.1 hp).2
  | case3 seen name rest hseen hnone =>
    obtain ⟨model, hm⟩ := (List.forall_mem_cons.1 hp).1
    cases hnone.symm.trans hm
  | case4 seen name rest hseen model hm ih =>
    rw [reach_of_find? hseen hm]
    refine ih fun n hn => ?_
    rcases List.mem_append.1 hn with hn | hn
    · exact h.registered ⟨model, hm, List.mem_reverse.1 hn⟩
    · exact (List.forall_mem_cons.1 hp).2 n hn

theorem Ranked.exists_ancestors (h : r.Ranked rank) (hm : r.find? name = some model) :
    ∃ set, r.ancestors name = .ok set := by
  refine exists_bind_eq_ok (h.exists_reach (List.forall_mem_singleton.2 ⟨model, hm⟩)) ?_
  exact fun seen _ => ⟨_, rfl⟩

end Registry

end FieldMask
