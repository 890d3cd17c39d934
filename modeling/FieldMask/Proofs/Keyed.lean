import FieldMask.Keyed
import Mathlib.Data.List.Forall2

/-!
# Members of keyed lists

Where the members of a keyed list come from once others are put to it, and when putting is no more
than writing one list after the other (`putAll_eq_append`): a list with distinct keys is the one
that its own pairs leave behind (`ofPairs_eq_self`).

Two keyed lists are `Related` if they have the same keys in the same order, with related values.
-/

namespace FieldMask

namespace Keyed

variable {α : Type} {key : String} {value : α} {members more : List (String × α)}

@[simp] theorem keys_nil : keys ([] : List (String × α)) = [] := rfl

@[simp] theorem keys_cons (m : String × α) : keys (m :: members) = m.1 :: keys members := rfl

@[simp] theorem keys_append : keys (members ++ more) = keys members ++ keys more :=
  List.map_append

theorem mem_keys_of_mem {m : String × α} (h : m ∈ members) : m.1 ∈ keys members :=
  List.mem_map_of_mem h

theorem mem_of_lookup (h : members.lookup key = some value) : (key, value) ∈ members := by
  induction members with
  | nil => simp at h
  | cons m rest ih =>
    obtain ⟨k, v⟩ := m
    rw [lookup_cons] at h
    split at h
    · rename_i hk
      obtain rfl := Option.some.inj h
      exact hk ▸ List.mem_cons_self
    · exact List.mem_cons_of_mem _ (ih h)

theorem lookup_eq_none_iff : members.lookup key = none ↔ key ∉ keys members := by
  induction members with
  | nil => simp
  | cons m rest ih =>
    obtain ⟨k, v⟩ := m
    rw [lookup_cons]
    by_cases hk : key = k
    · simp [hk]
    · simp [hk, ih]

theorem contains_iff : contains members key = true ↔ key ∈ keys members := by
  rw [contains, Option.isSome_iff_ne_none, ne_eq, lookup_eq_none_iff, not_not]

theorem lookup_of_mem (hn : (keys members).Nodup) (h : (key, value) ∈ members) :
    members.lookup key = some value := by
  induction members with
  | nil => simp at h
  | cons m rest ih =>
    obtain ⟨k, v⟩ := m
    obtain ⟨hk, hn⟩ := List.nodup_cons.1 hn
    rw [lookup_cons]
    rcases List.mem_cons.1 h with h | h
    · obtain ⟨rfl, rfl⟩ := Prod.mk.inj h
      simp
    · have hkey : key ∈ keys rest := List.mem_map.2 ⟨_, h, rfl⟩
      rw [if_neg fun h : key = k => hk (h ▸ hkey)]
      exact ih hn h

theorem lookup_filter {p : String → Bool} :
    (members.filter fun m => p m.1).lookup key = if p key then members.lookup key else none := by
  induction members with
  | nil => simp
  | cons m rest ih =>
    obtain ⟨k, v⟩ := m
    rw [List.filter_cons, lookup_cons]
    by_cases hk : key = k
    · subst hk
      by_cases hp : p key = true <;> simp [hp, ih]
    · by_cases hp : p k = true <;> simp [hp, hk, lookup_cons, ih]

/-- Lists with the same distinct keys in the same order and the same values under them are equal. -/
theorem eq_of_lookup {others : List (String × α)} (hk : keys members = keys others)
    (hn : (keys members).Nodup) (h : ∀ key, members.lookup key = others.lookup key) :
    members = others := by
  induction members generalizing others with
  | nil => exact (List.map_eq_nil_iff.1 hk.symm).symm
  | cons m rest ih =>
    cases others with
    | nil => cases hk
    | cons m' rest' =>
      obtain ⟨k, v⟩ := m
      obtain ⟨k', v'⟩ := m'
      obtain ⟨rfl, hrest⟩ : k = k' ∧ keys rest = keys rest' := List.cons.inj hk
      obtain ⟨hnew, hn⟩ := List.nodup_cons.1 hn
      have hv := h k
      rw [lookup_cons, lookup_cons, if_pos rfl, if_pos rfl] at hv
      rw [Option.some.inj hv, ih hrest hn fun key => ?_]
      by_cases hkey : key = k
      · rw [hkey, lookup_eq_none_iff.2 hnew, lookup_eq_none_iff.2 (hrest ▸ hnew)]
      · have := h key
        rwa [lookup_cons, lookup_cons, if_neg hkey, if_neg hkey] at this

/-! ## Putting -/

theorem mem_put {m : String × α} (h : m ∈ put key value members) :
    m = (key, value) ∨ m ∈ members := by
  induction members with
  | nil => exact .inl (List.mem_singleton.1 h)
  | cons a rest ih =>
    obtain ⟨k, v⟩ := a
    rw [put_cons] at h
    split at h
    · rename_i hk
      rcases List.mem_cons.1 h with h | h
      · exact .inl (hk ▸ h)
      · exact .inr (List.mem_cons_of_mem _ h)
    · rcases List.mem_cons.1 h with h | h
      · exact .inr (h ▸ List.mem_cons_self)
      · rcases ih h with h | h
        · exact .inl h
        · exact .inr (List.mem_cons_of_mem _ h)

@[simp] theorem putAll_nil : putAll members [] = members := rfl

theorem putAll_cons (m : String × α) :
    putAll members (m :: more) = putAll (put m.1 m.2 members) more := rfl

theorem mem_putAll {m : String × α} (h : m ∈ putAll members more) : m ∈ members ∨ m ∈ more := by
  induction more generalizing members with
  | nil => exact .inl h
  | cons a more ih =>
    rcases ih (putAll_cons a ▸ h) with h | h
    · rcases mem_put h with h | h
      · exact .inr (h ▸ List.mem_cons_self)
      · exact .inl h
    · exact .inr (List.mem_cons_of_mem _ h)

/-- What is there after putting more was put, or it was there and nothing is put under its key. -/
theorem mem_more_or_old (hn : (keys members).Nodup) {m : String × α}
    (h : m ∈ putAll members more) : m ∈ more ∨ m ∈ members ∧ m.1 ∉ keys more := by
  induction more generalizing members with
  | nil => exact .inr ⟨h, List.not_mem_nil⟩
  | cons a more ih =>
    rcases ih (nodup_keys_put hn) (putAll_cons a ▸ h) with hmore | ⟨hput, hnew⟩
    · exact .inl (List.mem_cons_of_mem _ hmore)
    · by_cases hk : m.1 = a.1
      · have hlookup := lookup_of_mem (nodup_keys_put hn) hput
        rw [lookup_put, if_pos hk] at hlookup
        exact .inl (List.mem_cons.2 (.inl (Prod.ext hk (Option.some.inj hlookup).symm)))
      · rcases mem_put hput with rfl | hold
        · exact absurd rfl hk
        · exact .inr ⟨hold, fun hmem => (List.mem_cons.1 hmem).elim hk hnew⟩

theorem mem_of_mem_ofPairs {m : String × α} (h : m ∈ ofPairs members) : m ∈ members :=
  (mem_putAll h).resolve_left List.not_mem_nil

theorem put_of_not_mem (h : key ∉ keys members) :
    put key value members = members ++ [(key, value)] := by
  induction members with
  | nil => rfl
  | cons m rest ih =>
    obtain ⟨k, v⟩ := m
    obtain ⟨hk, hr⟩ := not_or.1 (fun h' => h (List.mem_cons.2 h'))
    rw [put_cons, if_neg (Ne.symm hk), ih hr]
    rfl

/-- Putting members under keys that are all new writes them at the end. -/
theorem putAll_eq_append (h : (keys (members ++ more)).Nodup) :
    putAll members more = members ++ more := by
  induction more generalizing members with
  | nil => simp
  | cons m more ih =>
    have hm : m.1 ∉ keys members := by
      rw [keys_append, keys_cons, List.nodup_append] at h
      exact fun hk => h.2.2 _ hk _ List.mem_cons_self rfl
    rw [putAll_cons, put_of_not_mem hm, ih (by simpa using h)]
    simp

/-- A list with distinct keys is what its own pairs leave behind. -/
theorem ofPairs_eq_self (h : (keys members).Nodup) : ofPairs members = members :=
  putAll_eq_append h

theorem mem_keys_put {k : String} :
    k ∈ keys (put key value members) ↔ k = key ∨ k ∈ keys members := by
  rw [keys_put]
  split
  · rename_i h
    refine ⟨.inr, fun hk => ?_⟩
    rcases hk with rfl | hk
    · exact h
    · exact hk
  · rw [List.mem_append, List.mem_singleton, or_comm]

theorem mem_keys_putAll {k : String} :
    k ∈ keys (putAll members more) ↔ k ∈ keys members ∨ k ∈ keys more := by
  induction more generalizing members with
  | nil => simp
  | cons m more ih =>
    rw [putAll_cons, ih, mem_keys_put, keys_cons, List.mem_cons, or_assoc, or_left_comm]

theorem keys_subset_putAll : keys members ⊆ keys (putAll members more) :=
  fun _ hk => mem_keys_putAll.2 (.inl hk)

theorem subset_keys_putAll : keys more ⊆ keys (putAll members more) :=
  fun _ hk => mem_keys_putAll.2 (.inr hk)

theorem putAll_append {last : List (String × α)} :
    putAll members (more ++ last) = putAll (putAll members more) last :=
  List.foldl_append

theorem put_put (v : α) : put key value (put key v members) = put key value members := by
  induction members with
  | nil => simp [put_cons]
  | cons m rest ih =>
    obtain ⟨k, v'⟩ := m
    rw [put_cons, put_cons]
    by_cases hk : k = key
    · rw [if_pos hk, if_pos hk, put_cons, if_pos hk]
    · rw [if_neg hk, if_neg hk, put_cons, if_neg hk, ih]

/-- A key that is present keeps its place, so a value is put under it before or after another. -/
theorem put_comm {k : String} (v : α) (hk : key ∈ keys members) (hne : k ≠ key) :
    put key value (put k v members) = put k v (put key value members) := by
  induction members with
  | nil => cases hk
  | cons m rest ih =>
    obtain ⟨k', v'⟩ := m
    by_cases hkey : k' = key
    · subst hkey
      rw [put_cons, if_neg (Ne.symm hne), put_cons, if_pos rfl, put_cons, if_pos rfl, put_cons,
        if_neg (Ne.symm hne)]
    · have hrest : key ∈ keys rest := (List.mem_cons.1 hk).resolve_left (Ne.symm hkey)
      rw [put_cons key k', if_neg hkey]
      by_cases hk' : k' = k
      · rw [put_cons, if_pos hk', put_cons, if_neg hkey, put_cons, if_pos hk']
      · rw [put_cons, if_neg hk', put_cons, if_neg hkey, put_cons, if_neg hk', ih hrest]

theorem put_putAll (hk : key ∈ keys members) (hm : key ∉ keys more) :
    put key value (putAll members more) = putAll (put key value members) more := by
  induction more generalizing members with
  | nil => rfl
  | cons m more ih =>
    obtain ⟨hne, hm⟩ := not_or.1 fun h => hm (List.mem_cons.2 h)
    rw [putAll_cons, putAll_cons, ih (mem_keys_put.2 (.inr hk)) hm, put_comm _ hk (Ne.symm hne)]

/-- Putting a value to a list and then the list to others is putting the list and then the value. -/
theorem putAll_put (hn : (keys more).Nodup) :
    putAll members (put key value more) = put key value (putAll members more) := by
  induction more generalizing members with
  | nil => rfl
  | cons m more ih =>
    obtain ⟨k, v⟩ := m
    obtain ⟨hnew, hn⟩ := List.nodup_cons.1 hn
    rw [put_cons, putAll_cons]
    by_cases hk : k = key
    · subst hk
      rw [if_pos rfl, putAll_cons, put_putAll (mem_keys_put.2 (.inl rfl)) hnew, put_put]
    · rw [if_neg hk, putAll_cons, ih hn]

/-- Lists with distinct keys are put one after the other, or the one to the other before. -/
theorem putAll_putAll {last : List (String × α)} (hn : (keys more).Nodup) :
    putAll members (putAll more last) = putAll (putAll members more) last := by
  induction last generalizing more with
  | nil => rfl
  | cons m last ih => rw [putAll_cons, ih (nodup_keys_put hn), putAll_put hn, putAll_cons]

theorem putAll_ofPairs : putAll members (ofPairs more) = putAll members more :=
  putAll_putAll List.nodup_nil

theorem nodup_keys_ofPairs : (keys (ofPairs members)).Nodup := nodup_keys_putAll List.nodup_nil

theorem map_put {β : Type} (f : α → β) :
    (put key value members).map (fun m => (m.1, f m.2))
      = put key (f value) (members.map fun m => (m.1, f m.2)) := by
  induction members with
  | nil => rfl
  | cons m rest ih =>
    obtain ⟨k, v⟩ := m
    rw [put_cons, List.map_cons, put_cons]
    split
    · rfl
    · rw [List.map_cons, ih]

theorem map_putAll {β : Type} (f : α → β) :
    (putAll members more).map (fun m => (m.1, f m.2))
      = putAll (members.map fun m => (m.1, f m.2)) (more.map fun m => (m.1, f m.2)) := by
  induction more generalizing members with
  | nil => rfl
  | cons m more ih => rw [putAll_cons, ih, map_put, List.map_cons, putAll_cons]

theorem mem_put_self : (key, value) ∈ put key value members :=
  mem_of_lookup (by rw [lookup_put, if_pos rfl])

theorem mem_put_of_mem {m : String × α} (h : m ∈ members) (hne : m.1 ≠ key) :
    m ∈ put key value members := by
  induction members with
  | nil => cases h
  | cons a rest ih =>
    obtain ⟨k, v⟩ := a
    rw [put_cons]
    rcases List.mem_cons.1 h with rfl | h
    · rw [if_neg hne]
      exact List.mem_cons_self
    · split
      · exact List.mem_cons_of_mem _ h
      · exact List.mem_cons_of_mem _ (ih h)

theorem mem_putAll_of_mem {m : String × α} (h : m ∈ members) (hnew : m.1 ∉ keys more) :
    m ∈ putAll members more := by
  induction more generalizing members with
  | nil => exact h
  | cons a more ih =>
    obtain ⟨hne, hnew⟩ := not_or.1 fun h => hnew (List.mem_cons.2 h)
    exact ih (mem_put_of_mem h hne) hnew

/-- What is put last under its key is there. -/
theorem mem_putAll_of_mem_ofPairs {m : String × α} (h : m ∈ ofPairs more) :
    m ∈ putAll members more := by
  have hn : (keys (ofPairs more)).Nodup := nodup_keys_ofPairs
  rw [← putAll_ofPairs]
  generalize ofPairs more = more at h hn
  induction more generalizing members with
  | nil => cases h
  | cons a more ih =>
    obtain ⟨hnew, hn⟩ := List.nodup_cons.1 hn
    rw [putAll_cons]
    rcases List.mem_cons.1 h with rfl | h
    · exact mem_putAll_of_mem mem_put_self hnew
    · exact ih h hn

/-! ## Related lists -/

section Related

variable {β : Type} {R : String → α → β → Prop} {others : List (String × β)}

/-- Members of the same keys, in the same order, with related values. -/
def Related (R : String → α → β → Prop) : List (String × α) → List (String × β) → Prop :=
  List.Forall₂ fun a b => a.1 = b.1 ∧ R a.1 a.2 b.2

theorem Related.keys_eq (h : Related R members others) : keys members = keys others := by
  induction h with
  | nil => rfl
  | cons hab _ ih => rw [keys_cons, keys_cons, hab.1, ih]

/-- Related lists both lack a key, or have related values under it. -/
theorem Related.lookup (h : Related R members others) (key : String) :
    (members.lookup key = none ∧ others.lookup key = none) ∨
      ∃ v w, members.lookup key = some v ∧ others.lookup key = some w ∧ R key v w := by
  induction h with
  | nil => exact .inl ⟨rfl, rfl⟩
  | @cons a b members others hab _ ih =>
    obtain ⟨k, v⟩ := a
    obtain ⟨k', w⟩ := b
    obtain ⟨rfl, hr⟩ : k = k' ∧ R k v w := hab
    rw [lookup_cons, lookup_cons]
    by_cases hk : key = k
    · subst hk
      rw [if_pos rfl, if_pos rfl]
      exact .inr ⟨v, w, rfl, rfl, hr⟩
    · rw [if_neg hk, if_neg hk]
      exact ih

/-- Putting related values under one key keeps the lists related. -/
theorem Related.put {other : β} (h : Related R members others) (hv : R key value other) :
    Related R (put key value members) (put key other others) := by
  induction h with
  | nil => exact .cons ⟨rfl, hv⟩ .nil
  | @cons a b members others hab hrest ih =>
    obtain ⟨k, v⟩ := a
    obtain ⟨k', v'⟩ := b
    obtain ⟨rfl, hr⟩ : k = k' ∧ R k v v' := hab
    rw [put_cons, put_cons]
    by_cases hk : k = key
    · subst hk
      rw [if_pos rfl, if_pos rfl]
      exact .cons ⟨rfl, hv⟩ hrest
    · rw [if_neg hk, if_neg hk]
      exact .cons ⟨rfl, hr⟩ ih

/-- Putting related lists keeps the lists that they are put to related. -/
theorem Related.putAll {more : List (String × α)} {others' : List (String × β)}
    (h : Related R members others) (hm : Related R more others') :
    Related R (putAll members more) (putAll others others') := by
  induction hm generalizing members others with
  | nil => exact h
  | @cons a b more others' hab _ ih =>
    obtain ⟨k, v⟩ := a
    obtain ⟨k', w⟩ := b
    obtain ⟨rfl, hr⟩ : k = k' ∧ R k v w := hab
    exact ih (h.put hr)

theorem Related.append {more : List (String × α)} {others' : List (String × β)}
    (h : Related R members others) (hm : Related R more others') :
    Related R (members ++ more) (others ++ others') :=
  List.rel_append h hm

theorem related_self {R : String → α → α → Prop} (h : ∀ key value, R key value value) :
    Related R members members :=
  List.forall₂_same.2 fun m _ => ⟨rfl, h m.1 m.2⟩

theorem perm_cons_filter (hn : (keys members).Nodup) (h : members.lookup key = some value) :
    ((key, value) :: members.filter fun m => m.1 != key).Perm members := by
  induction members with
  | nil => cases h
  | cons m rest ih =>
    obtain ⟨k, v⟩ := m
    obtain ⟨hnew, hn⟩ : k ∉ keys rest ∧ (keys rest).Nodup := List.nodup_cons.1 hn
    rw [lookup_cons] at h
    by_cases hk : key = k
    · subst hk
      rw [if_pos rfl] at h
      obtain rfl := Option.some.inj h
      have hrest : rest.filter (fun m => m.1 != key) = rest := by
        refine List.filter_eq_self.2 fun m hm => bne_iff_ne.2 ?_
        rintro rfl
        exact hnew (mem_keys_of_mem hm)
      rw [List.filter_cons_of_neg (by simp), hrest]
    · rw [if_neg hk] at h
      rw [List.filter_cons_of_pos (by simpa using Ne.symm hk)]
      exact (List.Perm.swap _ _ _).trans ((ih hn h).cons _)

/-- Lists with distinct keys and related values under them are related up to their order. -/
theorem exists_related_perm (hm : (keys members).Nodup) (ho : (keys others).Nodup)
    (h : ∀ key, (members.lookup key = none ∧ others.lookup key = none) ∨
      ∃ v w, members.lookup key = some v ∧ others.lookup key = some w ∧ R key v w) :
    ∃ moved, Related R members moved ∧ moved.Perm others := by
  induction members generalizing others with
  | nil =>
    have hnil : others = [] := by
      refine List.eq_nil_iff_forall_not_mem.2 fun m hm => ?_
      rcases h m.1 with ⟨-, hnone⟩ | ⟨_, _, hv, -⟩
      · exact lookup_eq_none_iff.1 hnone (mem_keys_of_mem hm)
      · cases hv
    exact ⟨[], .nil, hnil ▸ .refl _⟩
  | cons m rest ih =>
    obtain ⟨k, v⟩ := m
    obtain ⟨hnew, hm⟩ := List.nodup_cons.1 hm
    rcases h k with ⟨hnone, -⟩ | ⟨v', w, hv, hw, hr⟩
    · rw [lookup_cons, if_pos rfl] at hnone
      cases hnone
    rw [lookup_cons, if_pos rfl] at hv
    obtain rfl := Option.some.inj hv
    have ho' : (keys (others.filter fun m => m.1 != k)).Nodup :=
      ho.sublist (List.filter_sublist.map _)
    obtain ⟨moved, hmoved, hperm⟩ := ih hm ho' fun key => by
      rw [lookup_filter (p := fun key => key != k)]
      by_cases hk : key = k
      · subst hk
        rw [if_neg (by simp)]
        exact .inl ⟨lookup_eq_none_iff.2 hnew, rfl⟩
      · rw [if_pos (bne_iff_ne.2 hk)]
        have hkey := h key
        rwa [lookup_cons, if_neg hk] at hkey
    exact ⟨(k, w) :: moved, .cons ⟨rfl, hr⟩ hmoved, (hperm.cons _).trans (perm_cons_filter ho hw)⟩

end Related

end Keyed

end FieldMask
