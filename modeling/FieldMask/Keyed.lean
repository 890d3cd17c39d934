/-!
# Keyed lists

A list of pairs in insertion order stands for an object with named members: a key is written once,
at the place where it was first put, and putting it again replaces its value there. Object members
of JSON values and the fields of a model are held this way.

`lookup_put` says what a member reads as after a `put`, and `keys_put` where it stands.
-/

namespace FieldMask

namespace Keyed

variable {α : Type}

/-- Put a value under a key: a key that is present keeps its place, a new one goes to the end. -/
def put (key : String) (value : α) : List (String × α) → List (String × α)
  | [] => [(key, value)]
  | (k, v) :: rest => if k = key then (k, value) :: rest else (k, v) :: put key value rest

/-- Put every pair of the second list, in order. -/
def putAll (members : List (String × α)) (more : List (String × α)) : List (String × α) :=
  more.foldl (fun acc (key, value) => put key value acc) members

/-- The members that pairs written one after the other leave behind. -/
def ofPairs (pairs : List (String × α)) : List (String × α) := putAll [] pairs

/-- The keys, in order. -/
def keys (members : List (String × α)) : List String := members.map (·.1)

/-- Whether the key is present. -/
def contains (members : List (String × α)) (key : String) : Bool := (members.lookup key).isSome

@[simp] theorem put_nil (key : String) (value : α) : put key value [] = [(key, value)] := rfl

theorem put_cons (key k : String) (value v : α) (rest : List (String × α)) :
    put key value ((k, v) :: rest)
      = if k = key then (k, value) :: rest else (k, v) :: put key value rest := rfl

theorem lookup_cons (k key : String) (value : α) (rest : List (String × α)) :
    ((key, value) :: rest).lookup k = if k = key then some value else rest.lookup k := by
  rw [List.lookup_cons]
  by_cases h : k = key
  · simp [h]
  · simp [beq_eq_false_iff_ne.mpr h, h]

theorem lookup_put (key k : String) (value : α) (members : List (String × α)) :
    (put key value members).lookup k = if k = key then some value else members.lookup k := by
  induction members with
  | nil => simp [lookup_cons]
  | cons m rest ih =>
    obtain ⟨k', v⟩ := m
    rw [put_cons]
    by_cases hk : k' = key
    · subst hk
      by_cases h : k = k' <;> simp [lookup_cons, h]
    · by_cases h : k = k'
      · subst h
        simp [hk]
      · simp [hk, lookup_cons, ih, h]

theorem keys_put (key : String) (value : α) (members : List (String × α)) :
    keys (put key value members)
      = if key ∈ keys members then keys members else keys members ++ [key] := by
  induction members with
  | nil => simp [keys]
  | cons m rest ih =>
    obtain ⟨k, v⟩ := m
    rw [put_cons]
    by_cases hk : k = key
    · simp [hk, keys]
    · simp only [hk, if_false]
      have : keys ((k, v) :: put key value rest) = k :: keys (put key value rest) := rfl
      rw [this, ih]
      have h' : key ≠ k := fun h => hk h.symm
      by_cases hm : key ∈ keys rest <;> simp_all [keys]

/-- Putting keeps the keys distinct. -/
theorem nodup_keys_put {key : String} {value : α} {members : List (String × α)}
    (h : (keys members).Nodup) : (keys (put key value members)).Nodup := by
  rw [keys_put]
  split
  · exact h
  · rename_i hm
    refine List.nodup_append.mpr ⟨h, by simp, ?_⟩
    intro a ha b hb
    simp only [List.mem_singleton] at hb
    exact fun hab => hm (hb ▸ hab ▸ ha)

theorem nodup_keys_putAll {members more : List (String × α)}
    (h : (keys members).Nodup) : (keys (putAll members more)).Nodup := by
  induction more generalizing members with
  | nil => exact h
  | cons m rest ih => exact ih (nodup_keys_put h)

end Keyed

end FieldMask
