import FieldMask.Proofs.Model.Extension
import Mathlib

/-!
# What ancestors are

Going through pending names is a row of turns, each of which takes one name away and may add the
parents of a model that was not seen before, so there are no more turns than names ever to come
(`length_le_ahead`), also where models inherit from themselves. It stops early only at a name that
is not registered (`reach_eq_error`).

The ancestors that are listed for a model are what is reached from it through parents, in any number
of steps (`mem_ancestors_iff`): going through pending names keeps the parents of all that was seen
either seen or pending, so nothing is left out once nothing is pending. Models have a common
ancestor just if there is exactly one name that is reached from all of them
(`exists_commonAncestor_iff`). Both are put together in `ancestors_exact`.
-/

namespace FieldMask

namespace Registry

open Relation (ReflTransGen)

variable {r : Registry} {model : Model} {name n : String} {seen pending out set : List String}

/-! ## Turns -/

/--
One turn of going through pending names: a name that was seen is dropped, and a registered one is
seen, with its parents pending in place of it.
-/
inductive Turn (r : Registry) : List String × List String → List String × List String → Prop
  | skip {seen rest : List String} {name : String} (h : name ∈ seen) :
      Turn r (seen, name :: rest) (seen, rest)
  | visit {seen rest : List String} {name : String} {model : Model} (h : name ∉ seen)
      (hm : r.find? name = some model) :
      Turn r (seen, name :: rest) (name :: seen, model.parents.reverse ++ rest)

/-- What is found is the same after a turn. -/
theorem reach_of_turn {now next : List String × List String} (h : r.Turn now next) :
    r.reach now.1 now.2 = r.reach next.1 next.2 := by
  cases h with
  | skip hseen => exact reach_of_mem hseen
  | visit hnew hm => exact reach_of_find? hnew hm

/-- Where no turn is left, all is found or the next name is not registered. -/
theorem reach_of_no_turn {now : List String × List String} (h : ∀ next, ¬r.Turn now next) :
    r.reach now.1 now.2 = .ok now.1 ∨ ∃ n, r.reach now.1 now.2 = .error (.unknownModel n) := by
  obtain ⟨seen, pending⟩ := now
  cases pending with
  | nil =>
    rw [reach]
    exact .inl rfl
  | cons name rest =>
    by_cases hseen : name ∈ seen
    · exact absurd (.skip hseen) (h _)
    · cases hm : r.find? name with
      | none => exact .inr ⟨name, reach_of_none hseen hm⟩
      | some model => exact absurd (.visit hseen hm) (h _)

/-- The parents of a name, if it is registered. -/
def parentsOf (r : Registry) (name : String) : List String := (r.find? name).elim [] (·.parents)

/-- All that is pending, and what may be: the parents of all that is yet to be seen. -/
def ahead (r : Registry) (now : List String × List String) : List String :=
  now.2 ++ (r.namesOff now.1).flatMap r.parentsOf

/-- A registered name that was not seen is one of those that are yet to be seen. -/
theorem namesOff_perm_cons (hm : r.find? name = some model) (h : name ∉ seen) :
    (r.namesOff seen).Perm (name :: r.namesOff (name :: seen)) := by
  have hmem : name ∈ r.namesOff seen :=
    List.mem_filter.2 ⟨mem_names_of_find? hm, by simpa using h⟩
  have hnodup : (r.namesOff seen).Nodup := (r.ascending_names.imp Std.ne_of_lt).filter _
  rw [namesOff_cons, ← hnodup.erase_eq_filter]
  exact List.perm_cons_erase hmem

theorem length_ahead_of_turn {now next : List String × List String} (h : r.Turn now next) :
    (r.ahead now).length = (r.ahead next).length + 1 := by
  cases h with
  | skip hseen => simp [ahead, Nat.add_right_comm]
  | @visit seen rest name model hnew hm =>
    have hparents : r.parentsOf name = model.parents := by rw [parentsOf, hm, Option.elim_some]
    have hoff := ((namesOff_perm_cons hm hnew).flatMap_right r.parentsOf).length_eq
    rw [List.flatMap_cons, hparents, List.length_append] at hoff
    simp only [ahead, List.length_append, List.length_reverse, List.length_cons]
    omega

theorem length_le_ahead {now : List String × List String} {turns : List (List String × List String)}
    (h : (now :: turns).IsChain r.Turn) : turns.length ≤ (r.ahead now).length := by
  induction turns generalizing now with
  | nil => exact Nat.zero_le _
  | cons next turns ih =>
    obtain ⟨hturn, h⟩ := List.isChain_cons_cons.1 h
    rw [length_ahead_of_turn hturn]
    exact Nat.succ_le_succ (ih h)

/-- Whatever is gone through, what is found in the end is the same. -/
theorem reach_of_isChain {now : List String × List String}
    {turns : List (List String × List String)} (h : (now :: turns).IsChain r.Turn) :
    ∀ next ∈ turns, r.reach now.1 now.2 = r.reach next.1 next.2 := by
  induction turns generalizing now with
  | nil => exact List.forall_mem_nil _
  | cons next turns ih =>
    obtain ⟨hturn, h⟩ := List.isChain_cons_cons.1 h
    rw [reach_of_turn hturn]
    exact List.forall_mem_cons.2 ⟨rfl, ih h⟩

/-- At first, a name is ahead, and all parents of registered models. -/
theorem ahead_start : r.ahead ([], [name]) = name :: r.toList.flatMap (·.parents) := by
  have hoff : r.namesOff [] = r.names := List.filter_eq_self.2 fun n _ => rfl
  rw [ahead, hoff, List.singleton_append, names, NameMap.names, toList, NameMap.values,
    List.flatMap_map, List.flatMap_map]
  congr 1
  refine List.flatMap_congr fun e he => ?_
  rw [parentsOf, find?_of_mem he, Option.elim_some]

/-! ## One model -/

/-- What was seen and what was pending is found. -/
theorem subset_reach (h : r.reach seen pending = .ok out) :
    (∀ n ∈ seen, n ∈ out) ∧ ∀ n ∈ pending, n ∈ out := by
  refine reach_induct (P := fun seen pending => (∀ n ∈ seen, n ∈ out) ∧ ∀ n ∈ pending, n ∈ out) h
    ⟨fun n hn => hn, List.forall_mem_nil _⟩ ?skip ?visit
  case skip =>
    rintro seen name rest hseen ⟨hout, hrest⟩
    exact ⟨hout, List.forall_mem_cons.2 ⟨hout name hseen, hrest⟩⟩
  case visit =>
    rintro seen name rest model - ⟨hout, hpending⟩
    obtain ⟨hname, hseen⟩ := List.forall_mem_cons.1 hout
    exact ⟨hseen, List.forall_mem_cons.2 ⟨hname, (List.forall_mem_append.1 hpending).2⟩⟩

/-- What is found was seen, or is reached from what was pending. -/
theorem chain_of_mem_reach (h : r.reach seen pending = .ok out) :
    ∀ n ∈ out, n ∈ seen ∨ ∃ p ∈ pending, ReflTransGen r.Parent p n := by
  refine reach_induct (P := fun seen pending =>
    ∀ n ∈ out, n ∈ seen ∨ ∃ p ∈ pending, ReflTransGen r.Parent p n) h (fun n hn => .inl hn)
    ?skip ?visit
  case skip =>
    intro seen name rest hseen ih n hn
    refine (ih n hn).imp_right ?_
    rintro ⟨p, hp, hchain⟩
    exact ⟨p, List.mem_cons_of_mem _ hp, hchain⟩
  case visit =>
    intro seen name rest model hm ih n hn
    rcases ih n hn with hn | ⟨p, hp, hchain⟩
    · rcases List.mem_cons.1 hn with rfl | hn
      · exact .inr ⟨n, List.mem_cons_self, .refl⟩
      · exact .inl hn
    · rcases List.mem_append.1 hp with hp | hp
      · have hparent : r.Parent name p := ⟨model, hm, List.mem_reverse.1 hp⟩
        exact .inr ⟨name, List.mem_cons_self, .head hparent hchain⟩
      · exact .inr ⟨p, List.mem_cons_of_mem _ hp, hchain⟩

/-- The parents of all that is found are found, if those of all that was seen were to be. -/
theorem closed_reach (h : r.reach seen pending = .ok out)
    (hc : ∀ s ∈ seen, ∀ p, r.Parent s p → p ∈ seen ∨ p ∈ pending) :
    ∀ s ∈ out, ∀ p, r.Parent s p → p ∈ out := by
  revert hc
  refine reach_induct (P := fun seen pending =>
    (∀ s ∈ seen, ∀ p, r.Parent s p → p ∈ seen ∨ p ∈ pending) →
      ∀ s ∈ out, ∀ p, r.Parent s p → p ∈ out) h ?done ?skip ?visit
  case done => exact fun hc s hs p hp => (hc s hs p hp).resolve_right List.not_mem_nil
  case skip =>
    intro seen name rest hseen ih hc
    refine ih fun s hs p hp => ?_
    rcases hc s hs p hp with hmem | hmem
    · exact .inl hmem
    · rcases List.mem_cons.1 hmem with rfl | hmem
      · exact .inl hseen
      · exact .inr hmem
  case visit =>
    intro seen name rest model hm ih hc
    refine ih fun s hs p hp => ?_
    rcases List.mem_cons.1 hs with rfl | hs
    · obtain ⟨m, hm', hmem⟩ := hp
      obtain rfl := Option.some.inj (hm.symm.trans hm')
      exact .inr (List.mem_append_left _ (List.mem_reverse.2 hmem))
    · rcases hc s hs p hp with hmem | hmem
      · exact .inl (List.mem_cons_of_mem _ hmem)
      · rcases List.mem_cons.1 hmem with rfl | hmem
        · exact .inl List.mem_cons_self
        · exact .inr (List.mem_append_right _ hmem)

/-- The ancestors of a model are all that is reached from it through parents. -/
theorem mem_ancestors_iff (h : r.ancestors name = .ok set) :
    n ∈ set ↔ ReflTransGen r.Parent name n := by
  obtain ⟨out, hout, h⟩ := bind_eq_ok.1 h
  obtain rfl := pure_eq_ok.1 h
  rw [List.mem_filter, List.contains_iff_mem]
  constructor
  · rintro ⟨-, hn⟩
    obtain ⟨p, hp, hchain⟩ := (chain_of_mem_reach hout n hn).resolve_left List.not_mem_nil
    exact List.mem_singleton.1 hp ▸ hchain
  · intro hchain
    have hn : n ∈ out := by
      induction hchain with
      | refl => exact (subset_reach hout).2 name (List.mem_singleton_self name)
      | tail _ hparent ih => exact closed_reach hout (List.forall_mem_nil _) _ ih _ hparent
    refine ⟨mem_names_iff.2 ?_, hn⟩
    exact (find?_of_mem_reach hout n hn).resolve_left List.not_mem_nil

/-- Going through pending names stops only at one that is reached and not registered. -/
theorem reach_eq_error {e : ModelError} (h : r.reach seen pending = .error e) :
    ∃ n, e = .unknownModel n ∧ r.find? n = none ∧ ∃ p ∈ pending, ReflTransGen r.Parent p n := by
  induction seen, pending using Registry.reach.induct (r := r) with
  | case1 seen =>
    rw [reach] at h
    cases h
  | case2 seen name rest hseen ih =>
    rw [reach_of_mem hseen] at h
    obtain ⟨n, he, hn, p, hp, hchain⟩ := ih h
    exact ⟨n, he, hn, p, List.mem_cons_of_mem _ hp, hchain⟩
  | case3 seen name rest hseen hnone =>
    rw [reach_of_none hseen hnone] at h
    exact ⟨name, (Except.error.inj h).symm, hnone, name, List.mem_cons_self, .refl⟩
  | case4 seen name rest hseen model hm ih =>
    rw [reach_of_find? hseen hm] at h
    obtain ⟨n, he, hn, p, hp, hchain⟩ := ih h
    rcases List.mem_append.1 hp with hp | hp
    · have hparent : r.Parent name p := ⟨model, hm, List.mem_reverse.1 hp⟩
      exact ⟨n, he, hn, name, List.mem_cons_self, .head hparent hchain⟩
    · exact ⟨n, he, hn, p, List.mem_cons_of_mem _ hp, hchain⟩

theorem ancestors_eq_error {e : ModelError} (h : r.ancestors name = .error e) :
    ∃ n, e = .unknownModel n ∧ r.find? n = none ∧ ReflTransGen r.Parent name n := by
  rcases bind_eq_error.1 h with h | ⟨out, -, h⟩
  · obtain ⟨n, he, hn, p, hp, hchain⟩ := reach_eq_error h
    exact ⟨n, he, hn, List.mem_singleton.1 hp ▸ hchain⟩
  · cases h

theorem find?_of_mem_ancestors (h : r.ancestors name = .ok set) (hn : n ∈ set) :
    ∃ m, r.find? n = some m := by
  obtain ⟨out, -, h⟩ := bind_eq_ok.1 h
  obtain rfl := pure_eq_ok.1 h
  exact mem_names_iff.1 (List.mem_filter.1 hn).1

theorem ascending_ancestors (h : r.ancestors name = .ok set) : set.Pairwise (· < ·) := by
  obtain ⟨out, -, h⟩ := bind_eq_ok.1 h
  obtain rfl := pure_eq_ok.1 h
  exact r.ascending_names.filter _

/-- The ancestors of a name are listed just if all that is reached from it is registered. -/
theorem exists_ancestors_iff : (∃ set, r.ancestors name = .ok set) ↔
    ∀ n, ReflTransGen r.Parent name n → ∃ m, r.find? n = some m := by
  constructor
  · rintro ⟨set, h⟩ n hn
    exact find?_of_mem_ancestors h ((mem_ancestors_iff h).2 hn)
  · intro hall
    cases h : r.ancestors name with
    | ok set => exact ⟨set, rfl⟩
    | error e =>
      obtain ⟨n, -, hnone, hn⟩ := ancestors_eq_error h
      obtain ⟨m, hm⟩ := hall n hn
      cases hnone.symm.trans hm

/-! ## Several models -/

theorem exists_eq_singleton_iff {l : List String} (h : l.Nodup) :
    (∃ a, l = [a]) ↔ ∃! a, a ∈ l := by
  constructor
  · rintro ⟨a, rfl⟩
    exact ⟨a, List.mem_singleton_self a, fun b hb => List.mem_singleton.1 hb⟩
  · rintro ⟨a, ha, hunique⟩
    have hperm : l.Perm [a] := by
      refine (List.perm_ext_iff_of_nodup h (List.pairwise_singleton _ a)).2 fun b => ?_
      exact ⟨fun hb => List.mem_singleton.2 (hunique b hb), fun hb => List.mem_singleton.1 hb ▸ ha⟩
    exact ⟨a, List.perm_singleton.1 hperm⟩

/-- What is an ancestor of one model and among the ancestors of others is reached from them all. -/
theorem mem_common_iff {t : String} {ts : List String} {first : List String}
    {others : List (List String)} (hfirst : r.ancestors t = .ok first)
    (hothers : List.Forall₂ (fun t set => r.ancestors t = .ok set) ts others) :
    n ∈ first.filter (fun n => others.all (·.contains n)) ↔
      ∀ t' ∈ t :: ts, ReflTransGen r.Parent t' n := by
  rw [List.mem_filter, List.all_eq_true, List.forall_mem_cons, mem_ancestors_iff hfirst]
  refine and_congr_right fun _ => ?_
  constructor
  · intro hall t' ht'
    obtain ⟨set, hset, hancestors⟩ := exists_right_of_mem hothers ht'
    exact (mem_ancestors_iff hancestors).1 (List.contains_iff_mem.1 (hall set hset))
  · intro hall set hset
    obtain ⟨t', ht', hancestors⟩ := exists_left_of_mem hothers hset
    exact List.contains_iff_mem.2 ((mem_ancestors_iff hancestors).2 (hall t' ht'))

theorem not_forall_eq (a : String) : ¬∀ n, n = a :=
  fun h => absurd ((h "").trans (h " ").symm) (by decide)

/-- The common ancestor is the one name that is reached from all; it is refused if there is none. -/
theorem commonAncestor_cases {names : List String}
    (h : ∀ t ∈ names, ∃ set, r.ancestors t = .ok set) :
    (∃ m, r.commonAncestor names = .ok m ∧ r.find? m.name = some m ∧
        ∀ n, (∀ t ∈ names, ReflTransGen r.Parent t n) ↔ n = m.name) ∨
      r.commonAncestor names = .error (.ambiguousAncestor names) ∧
        ¬∃! n, ∀ t ∈ names, ReflTransGen r.Parent t n := by
  obtain ⟨sets, hsets⟩ := exists_mapM_eq_ok h
  have hrel := mapM_eq_ok.1 hsets
  rw [commonAncestor, hsets, bind_ok]
  cases hrel with
  | nil =>
    -- Every name is reached from all of no models, so no name is the only one.
    refine .inr ⟨rfl, fun ⟨a, _, hunique⟩ => not_forall_eq a fun n => ?_⟩
    exact hunique n (List.forall_mem_nil _)
  | @cons t first ts others hfirst hothers =>
    dsimp only
    simp only [← mem_common_iff hfirst hothers]
    split
    · rename_i name hcommon
      have hname : name ∈ first := List.mem_of_mem_filter (hcommon ▸ List.mem_singleton_self name)
      obtain ⟨m, hm⟩ := find?_of_mem_ancestors hfirst hname
      refine .inl ⟨m, lookup_eq_ok.2 hm, (name_of_find? hm).symm ▸ hm, fun n => ?_⟩
      rw [hcommon, List.mem_singleton, name_of_find? hm]
    · rename_i hne
      rw [← exists_eq_singleton_iff (((ascending_ancestors hfirst).imp Std.ne_of_lt).filter _)]
      exact .inr ⟨rfl, fun ⟨a, ha⟩ => hne a ha⟩

/-- Several models have a common ancestor just if they are reached by exactly one name. -/
theorem exists_commonAncestor_iff {names : List String}
    (h : ∀ t ∈ names, ∃ set, r.ancestors t = .ok set) :
    (∃ ancestor, r.commonAncestor names = .ok ancestor) ↔
      ∃! n, ∀ t ∈ names, ReflTransGen r.Parent t n := by
  rcases commonAncestor_cases h with ⟨m, hm, -, hcommon⟩ | ⟨he, hcommon⟩
  · exact iff_of_true ⟨m, hm⟩ ⟨m.name, (hcommon m.name).2 rfl, fun n => (hcommon n).1⟩
  · exact iff_of_false (fun ⟨m, hm⟩ => by cases he.symm.trans hm) hcommon

/-- A model is the common ancestor just if its name, and no other, is reached from all. -/
theorem commonAncestor_eq_ok {names : List String} {model : Model}
    (h : ∀ t ∈ names, ∃ set, r.ancestors t = .ok set) :
    r.commonAncestor names = .ok model ↔ names ≠ [] ∧ r.find? model.name = some model ∧
      ∀ n, (∀ t ∈ names, ReflTransGen r.Parent t n) ↔ n = model.name := by
  rcases commonAncestor_cases h with ⟨m, hm, hfind, hcommon⟩ | ⟨he, hcommon⟩
  · rw [hm, Except.ok.injEq]
    constructor
    · rintro rfl
      refine ⟨?_, hfind, hcommon⟩
      rintro rfl
      exact not_forall_eq m.name fun n => (hcommon n).1 (List.forall_mem_nil _)
    · rintro ⟨-, hfind', hcommon'⟩
      have hname : m.name = model.name := (hcommon' m.name).1 ((hcommon m.name).2 rfl)
      exact Option.some.inj (hfind.symm.trans (hname ▸ hfind'))
  · refine iff_of_false (fun hm => by cases he.symm.trans hm) ?_
    rintro ⟨-, -, hcommon'⟩
    exact hcommon ⟨model.name, (hcommon' model.name).2 rfl, fun n => (hcommon' n).1⟩

/-- The order in which models are named, and how often, only shows in the names of a refusal. -/
theorem commonAncestor_congr {names others : List String}
    (h : ∀ t ∈ names, ∃ set, r.ancestors t = .ok set) (hmem : ∀ t, t ∈ others ↔ t ∈ names) :
    r.commonAncestor others
      = (r.commonAncestor names).mapError fun _ => .ambiguousAncestor others := by
  have hothers : ∀ t ∈ others, ∃ set, r.ancestors t = .ok set := fun t ht => h t ((hmem t).1 ht)
  have hsame (m : Model) : r.commonAncestor others = .ok m ↔ r.commonAncestor names = .ok m := by
    rw [commonAncestor_eq_ok hothers, commonAncestor_eq_ok h]
    simp only [ne_eq, List.eq_nil_iff_forall_not_mem, hmem]
  rcases commonAncestor_cases h with ⟨m, hm, -⟩ | ⟨he, -⟩
  · rw [hm, (hsame m).2 hm]
    rfl
  · rcases commonAncestor_cases hothers with ⟨m, hm, -⟩ | ⟨he', -⟩
    · cases he.symm.trans ((hsame m).1 hm)
    · rw [he, he']
      rfl

/--
**Ancestors are what is reached through parents.** In any registry, going through the ancestors of a
name takes no more turns than there are parents in the registry, and one for the name itself, and
then it has come to its result. If all that is reached from the name is registered, its ancestors
are just these names; if not, one that is not registered is reported. Of models whose ancestors are
listed, the common ancestor is the one and only that is reached from them all, if any is named; the
order in which they are named, and how often, makes no difference but to the names that a refusal
gives.
-/
theorem ancestors_exact (r : Registry) :
    (∀ name,
      (∀ turns : List (List String × List String), (([], [name]) :: turns).IsChain r.Turn →
        turns.length ≤ (r.toList.flatMap (·.parents)).length + 1 ∧
          ∀ now ∈ turns, r.reach [] [name] = r.reach now.1 now.2 ∧
            ((∀ next, ¬r.Turn now next) →
              r.reach [] [name] = .ok now.1 ∨ ∃ n, r.reach [] [name] = .error (.unknownModel n))) ∧
      ((∀ n, ReflTransGen r.Parent name n → ∃ m, r.find? n = some m) →
        ∃ set, r.ancestors name = .ok set ∧ set.Pairwise (· < ·) ∧
          ∀ n, n ∈ set ↔ ReflTransGen r.Parent name n) ∧
      ((¬∀ n, ReflTransGen r.Parent name n → ∃ m, r.find? n = some m) →
        ∃ n, r.ancestors name = .error (.unknownModel n) ∧
          ReflTransGen r.Parent name n ∧ r.find? n = none)) ∧
    ∀ names, (∀ t ∈ names, ∃ set, r.ancestors t = .ok set) →
      (∀ model, r.commonAncestor names = .ok model ↔
        names ≠ [] ∧ r.find? model.name = some model ∧
          ∀ n, (∀ t ∈ names, ReflTransGen r.Parent t n) ↔ n = model.name) ∧
      ∀ others, (∀ t, t ∈ others ↔ t ∈ names) →
        r.commonAncestor others
          = (r.commonAncestor names).mapError fun _ => .ambiguousAncestor others := by
  refine ⟨fun name => ⟨fun turns h => ?turns, fun hall => ?listed, fun hgap => ?unknown⟩,
    fun names h => ⟨fun model => commonAncestor_eq_ok h, fun others => commonAncestor_congr h⟩⟩
  case turns =>
    have hlength := length_le_ahead h
    rw [ahead_start, List.length_cons] at hlength
    refine ⟨hlength, fun now hmem => ?_⟩
    have hsame : r.reach [] [name] = r.reach now.1 now.2 := reach_of_isChain h now hmem
    exact ⟨hsame, fun hlast => hsame ▸ reach_of_no_turn hlast⟩
  case listed =>
    obtain ⟨set, hset⟩ := exists_ancestors_iff.2 hall
    exact ⟨set, hset, ascending_ancestors hset, fun n => mem_ancestors_iff hset⟩
  case unknown =>
    cases h : r.ancestors name with
    | ok set => exact absurd (exists_ancestors_iff.1 ⟨set, h⟩) hgap
    | error e =>
      obtain ⟨n, rfl, hnone, hn⟩ := ancestors_eq_error h
      exact ⟨n, rfl, hn, hnone⟩

/-- A model that inherits from itself, an heir of it, and an heir of what is not registered. -/
def loop : Registry :=
  ((empty.put (.inheriting "X" ["X"] [])).put (.inheriting "Y" ["X", "X"] [])).put
    (.inheriting "Z" ["Gone"] [])

theorem ancestors_exact_loop :
    let turns :=
      [(["Y"], ["X", "X"]), (["X", "Y"], ["X", "X"]), (["X", "Y"], ["X"]), (["X", "Y"], [])]
    let names := ["Y", "X", "Y"]
    (([], ["Y"]) :: turns).IsChain loop.Turn ∧
      turns.length ≤ (loop.toList.flatMap (·.parents)).length + 1 ∧
      (∀ n, ReflTransGen loop.Parent "Y" n → ∃ m, loop.find? n = some m) ∧
      (∃ set, loop.ancestors "Y" = .ok set ∧ ∀ n, n ∈ set ↔ ReflTransGen loop.Parent "Y" n) ∧
      (¬∀ n, ReflTransGen loop.Parent "Z" n → ∃ m, loop.find? n = some m) ∧
      (∃ n, loop.ancestors "Z" = .error (.unknownModel n)) ∧
      (∀ t ∈ names, ∃ set, loop.ancestors t = .ok set) ∧
      ∃ m, loop.commonAncestor names = .ok m ∧ loop.commonAncestor ["X", "Y"] = .ok m ∧
        ∀ n, (∀ t ∈ names, ReflTransGen loop.Parent t n) ↔ n = m.name := by
  intro turns names
  have hturns : (([], ["Y"]) :: turns).IsChain loop.Turn := by
    have hx : loop.find? "X" = some (.inheriting "X" ["X"] []) := by cbv
    have hy : loop.find? "Y" = some (.inheriting "Y" ["X", "X"] []) := by cbv
    simp only [turns, List.isChain_cons_cons, List.isChain_singleton, and_true]
    exact ⟨.visit List.not_mem_nil hy, .visit (by decide) hx, .skip List.mem_cons_self,
      .skip List.mem_cons_self⟩
  have hy : ∀ n, ReflTransGen loop.Parent "Y" n → ∃ m, loop.find? n = some m :=
    exists_ancestors_iff.1 (exists_of_isSome_toOption (by cbv))
  have hz : ¬∀ n, ReflTransGen loop.Parent "Z" n → ∃ m, loop.find? n = some m := by
    intro hall
    have hz : loop.find? "Z" = some (.inheriting "Z" ["Gone"] []) := by cbv
    have hgone : loop.find? "Gone" = none := by cbv
    obtain ⟨m, hm⟩ := hall "Gone" (.single ⟨_, hz, List.mem_singleton_self _⟩)
    cases hgone.symm.trans hm
  have hnames : ∀ t ∈ names, ∃ set, loop.ancestors t = .ok set := by
    have hx : ∃ set, loop.ancestors "X" = .ok set := exists_of_isSome_toOption (by cbv)
    simp [names, hx, exists_ancestors_iff.2 hy]
  obtain ⟨hone, hmany⟩ := ancestors_exact loop
  obtain ⟨hbound, -⟩ := (hone "Y").1 turns hturns
  obtain ⟨set, hset, -, hmem⟩ := (hone "Y").2.1 hy
  obtain ⟨n, hn, -⟩ := (hone "Z").2.2 hz
  obtain ⟨hok, hcongr⟩ := hmany names hnames
  obtain ⟨m, hm⟩ := exists_of_isSome_toOption (x := loop.commonAncestor names) (by cbv)
  have hswap : loop.commonAncestor ["X", "Y"] = .ok m := by
    rw [hcongr ["X", "Y"] (by simp [names, or_comm]), hm]
    rfl
  exact ⟨hturns, hbound, hy, ⟨set, hset, hmem⟩, hz, ⟨n, hn⟩, hnames, m, hm, hswap,
    ((hok m).1 hm).2.2⟩

end Registry

end FieldMask
