import FieldMask.Keyed

/-!
# Maps sorted by name

A `NameMap α` is a finite map from names to values, held as pairs in strictly ascending order of the
names. The order is that of the names' code points, which is also the byte order of their UTF-8
texts. The models of a registry and the tags of a polymorphic field are held this way, so that they
are listed by name whatever the order in which they were given.

`find?_insert` says what a name reads as after an `insert`.
-/

namespace FieldMask

/-- A finite map from names to values, in ascending order of the names. -/
structure NameMap (α : Type) where
  /-- The pairs, in order. -/
  entries : List (String × α)
  /-- The names ascend strictly. -/
  ascending : entries.Pairwise (fun a b => a.1 < b.1)

namespace NameMap

variable {α : Type}

/-- The map with no names. -/
def empty : NameMap α := ⟨[], List.Pairwise.nil⟩

/-- Insert into sorted pairs: the value of a present name is replaced. -/
def insertInto (name : String) (value : α) : List (String × α) → List (String × α)
  | [] => [(name, value)]
  | (n, v) :: rest =>
    if name < n then (name, value) :: (n, v) :: rest
    else if name = n then (name, value) :: rest
    else (n, v) :: insertInto name value rest

theorem mem_insertInto {name : String} {value : α} {e : String × α} {l : List (String × α)}
    (h : e ∈ insertInto name value l) : e = (name, value) ∨ e ∈ l := by
  induction l with
  | nil => exact .inl (by simpa [insertInto] using h)
  | cons m rest ih =>
    obtain ⟨n, v⟩ := m
    unfold insertInto at h
    split at h
    · rcases List.mem_cons.1 h with h | h
      · exact .inl h
      · exact .inr h
    · split at h
      · rcases List.mem_cons.1 h with h | h
        · exact .inl h
        · exact .inr (List.mem_cons_of_mem _ h)
      · rcases List.mem_cons.1 h with h | h
        · exact .inr (h ▸ List.mem_cons_self)
        · rcases ih h with h | h
          · exact .inl h
          · exact .inr (List.mem_cons_of_mem _ h)

theorem ascending_insertInto {name : String} {value : α} {l : List (String × α)}
    (h : l.Pairwise (fun a b => a.1 < b.1)) :
    (insertInto name value l).Pairwise (fun a b => a.1 < b.1) := by
  induction l with
  | nil => simp [insertInto]
  | cons m rest ih =>
    obtain ⟨n, v⟩ := m
    have hr := List.pairwise_cons.1 h
    unfold insertInto
    split
    · rename_i hlt
      refine List.pairwise_cons.2 ⟨fun e he => ?_, h⟩
      rcases List.mem_cons.1 he with rfl | he
      · exact hlt
      · exact String.lt_trans hlt (hr.1 e he)
    · rename_i hlt
      split
      · rename_i heq
        subst heq
        exact List.pairwise_cons.2 ⟨fun e he => hr.1 e he, hr.2⟩
      · rename_i hne
        refine List.pairwise_cons.2 ⟨fun e he => ?_, ih hr.2⟩
        rcases mem_insertInto he with rfl | he
        · exact Std.lt_of_le_of_ne hlt (fun h => hne h.symm)
        · exact hr.1 e he

/-- Insert a value under a name, in place of an earlier one. -/
def insert (m : NameMap α) (name : String) (value : α) : NameMap α :=
  ⟨insertInto name value m.entries, ascending_insertInto m.ascending⟩

/-- The value under a name. -/
def find? (m : NameMap α) (name : String) : Option α := m.entries.lookup name

/-- Whether the name is present. -/
def contains (m : NameMap α) (name : String) : Bool := (m.find? name).isSome

/-- The names, ascending. -/
def names (m : NameMap α) : List String := m.entries.map (·.1)

/-- The values, in the order of their names. -/
def values (m : NameMap α) : List α := m.entries.map (·.2)

/-- How many names there are. -/
def size (m : NameMap α) : Nat := m.entries.length

/-- The map that pairs inserted one after the other leave behind. -/
def ofPairs (pairs : List (String × α)) : NameMap α :=
  pairs.foldl (fun m (name, value) => m.insert name value) empty

theorem lookup_insertInto {name n : String} {value : α} {l : List (String × α)}
    (h : l.Pairwise (fun a b => a.1 < b.1)) :
    (insertInto name value l).lookup n = if n = name then some value else l.lookup n := by
  induction l with
  | nil => simp [insertInto, Keyed.lookup_cons]
  | cons m rest ih =>
    obtain ⟨k, v⟩ := m
    have hr := List.pairwise_cons.1 h
    unfold insertInto
    split
    · rw [Keyed.lookup_cons]
    · split
      · rename_i heq
        subst heq
        by_cases hn : n = name <;> simp [Keyed.lookup_cons, hn]
      · rename_i hne
        rw [Keyed.lookup_cons, Keyed.lookup_cons, ih hr.2]
        by_cases hk : n = k
        · have hn : n ≠ name := fun h => hne (h ▸ hk)
          simp [hk, hk ▸ hn]
        · simp [hk]

@[simp] theorem find?_insert (m : NameMap α) (name n : String) (value : α) :
    (m.insert name value).find? n = if n = name then some value else m.find? n :=
  lookup_insertInto m.ascending

end NameMap

end FieldMask
