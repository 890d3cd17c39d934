import FieldMask.Mask.Parser

/-!
# Siblings

Selectors that are written one after the other make up a list of siblings in which every name occurs
once: a selector whose name is taken replaces the one that has it, and any other goes to the end.
`Selector.place` is that rule and `Selector.denote` what follows from it for a selector as it is
written, with everything below it.

`Selector.insert` finds the place of a selector while it goes through the siblings;
`fst_insert_eq_place` says that this comes to the same, and `modify_insert` that the place which it
answers is the one where the selector stands.
-/

namespace FieldMask

namespace Selector

/-- The names of siblings, in order. -/
def names (siblings : List Selector) : List String := siblings.map name

/-- Siblings with one more selector: in place of the one of its name, or else at the end. -/
def place (siblings : List Selector) (s : Selector) : List Selector :=
  if s.name ∈ names siblings then siblings.map fun t => if t.name = s.name then s else t
  else siblings ++ [s]

mutual

/-- The selector that one as it is written stands for. -/
def denote : Selector → Selector
  | .wildcard => .wildcard
  | .leaf name => .leaf name
  | .nested name children => .nested name (denoteFrom [] children)

/-- The siblings that selectors as they are written add to those before them. -/
def denoteFrom (siblings : List Selector) : List Selector → List Selector
  | [] => siblings
  | s :: rest => denoteFrom (place siblings s.denote) rest

end

/-- The siblings that selectors as they are written stand for. -/
def denoteAll (written : List Selector) : List Selector := denoteFrom [] written

theorem sizeOf_children_lt {name : String} {children siblings : List Selector}
    (h : .nested name children ∈ siblings) : sizeOf children < sizeOf siblings := by
  have := List.sizeOf_lt_of_mem h
  simp at this
  omega

/-! ## Names -/

@[simp] theorem names_nil : names [] = [] := rfl

@[simp] theorem names_cons (s : Selector) (rest : List Selector) :
    names (s :: rest) = s.name :: names rest := rfl

@[simp] theorem names_append (a b : List Selector) : names (a ++ b) = names a ++ names b :=
  List.map_append

@[simp] theorem name_denote (s : Selector) : s.denote.name = s.name := by
  cases s <;> simp [denote, name]

@[simp] theorem name_ofName (text : String) : (ofName text).name = text := by
  unfold ofName
  split
  · rename_i h
    exact h.symm
  · rfl

theorem denote_ofName (text : String) : (ofName text).denote = ofName text := by
  unfold ofName
  split <;> simp [denote]

theorem names_place (siblings : List Selector) (s : Selector) :
    names (place siblings s)
      = if s.name ∈ names siblings then names siblings else names siblings ++ [s.name] := by
  unfold place
  split
  · simp only [names, List.map_map]
    refine List.map_congr_left fun t _ => ?_
    by_cases h : t.name = s.name <;> simp [h]
  · simp

theorem nodup_names_place {siblings : List Selector} (h : (names siblings).Nodup) (s : Selector) :
    (names (place siblings s)).Nodup := by
  rw [names_place]
  split
  · exact h
  · rename_i hs
    exact List.nodup_append.2 ⟨h, by simp, fun a ha b hb hab =>
      hs (List.mem_singleton.1 hb ▸ hab ▸ ha)⟩

/-! ## Selectors one after the other -/

theorem denoteFrom_append (siblings a b : List Selector) :
    denoteFrom siblings (a ++ b) = denoteFrom (denoteFrom siblings a) b := by
  induction a generalizing siblings with
  | nil => rfl
  | cons s rest ih => exact ih _

@[simp] theorem denoteAll_nil : denoteAll [] = [] := rfl

/-- One more selector is placed among the siblings that those before it stand for. -/
theorem denoteAll_snoc (written : List Selector) (s : Selector) :
    denoteAll (written ++ [s]) = place (denoteAll written) s.denote :=
  denoteFrom_append [] written [s]

theorem nodup_names_denoteFrom {siblings : List Selector} (h : (names siblings).Nodup)
    (written : List Selector) : (names (denoteFrom siblings written)).Nodup := by
  induction written generalizing siblings with
  | nil => exact h
  | cons s rest ih => exact ih (nodup_names_place h _)

theorem nodup_names_denoteAll (written : List Selector) : (names (denoteAll written)).Nodup :=
  nodup_names_denoteFrom (by simp) written

theorem denote_nested (name : String) (written : List Selector) :
    (nested name written).denote = nested name (denoteAll written) := rfl

/-! ## Finding the place -/

theorem insert_cons (s t : Selector) (rest : List Selector) :
    s.insert (t :: rest) = if t.name = s.name then (s :: rest, 0)
      else (t :: (s.insert rest).1, (s.insert rest).2 + 1) := rfl

/-- Among siblings of distinct names, a selector is inserted where it belongs. -/
theorem fst_insert_eq_place {siblings : List Selector} (h : (names siblings).Nodup)
    (s : Selector) : (s.insert siblings).1 = place siblings s := by
  induction siblings with
  | nil => rfl
  | cons t rest ih =>
    obtain ⟨ht, hrest⟩ := List.nodup_cons.1 h
    rw [insert_cons]
    split
    · rename_i hts
      have hkeep : ∀ u ∈ rest, u.name ≠ s.name := fun u hu hus =>
        ht (hts ▸ hus ▸ List.mem_map_of_mem hu)
      have : rest.map (fun u => if u.name = s.name then s else u) = rest := by
        rw [List.map_congr_left fun u hu => if_neg (hkeep u hu), List.map_id']
      simp [place, hts, this]
    · rename_i hts
      have hst : s.name ≠ t.name := fun h => hts h.symm
      by_cases hs : s.name ∈ names rest <;> simp [ih hrest, place, hts, hst, hs]

/-- The place that is answered is that of the selector. -/
theorem getElem?_insert (s : Selector) (siblings : List Selector) :
    (s.insert siblings).1[(s.insert siblings).2]? = some s := by
  induction siblings with
  | nil => rfl
  | cons t rest ih =>
    rw [insert_cons]
    split
    · rfl
    · simpa using ih

/-- To change a selector where it was inserted is to insert it changed. -/
theorem modify_insert {s u : Selector} (f : Selector → Selector) (hf : f s = u)
    (hname : u.name = s.name) (siblings : List Selector) :
    (s.insert siblings).1.modify (s.insert siblings).2 f = (u.insert siblings).1 := by
  induction siblings with
  | nil => simp [insert, hf]
  | cons t rest ih =>
    rw [insert_cons, insert_cons, hname]
    split
    · simp [hf]
    · simpa using ih

end Selector

end FieldMask
