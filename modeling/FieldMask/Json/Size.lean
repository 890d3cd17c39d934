import FieldMask.Pointer

/-!
# Sizes of parts

The members and items of a value are smaller than the value. Functions that go on with a part of a
value end for that reason.
-/

namespace FieldMask

namespace Json

theorem sizeOf_lookup_lt {members : Members} {key : String} {v : Json}
    (h : members.lookup key = some v) : sizeOf v < sizeOf members := by
  induction members with
  | nil => simp at h
  | cons m rest ih =>
    obtain ⟨k, w⟩ := m
    rw [Keyed.lookup_cons] at h
    split at h
    · simp only [Option.some.injEq] at h
      subst h
      simp
      omega
    · have := ih h
      simp
      omega

theorem sizeOf_getElem?_lt {items : List Json} {i : Nat} {v : Json} (h : items[i]? = some v) :
    sizeOf v < sizeOf items :=
  List.sizeOf_lt_of_mem (List.mem_of_getElem? h)

theorem sizeOf_lt_of_mem_items {items : List Json} {x : Json} (h : x ∈ items) :
    sizeOf x < sizeOf (Json.arr items) := by
  have := List.sizeOf_lt_of_mem h
  simp
  omega

theorem sizeOf_lt_of_mem_members {members : Members} {m : String × Json} (h : m ∈ members) :
    sizeOf m.2 < sizeOf (Json.obj members) := by
  obtain ⟨key, value⟩ := m
  have := List.sizeOf_lt_of_mem h
  simp at *
  omega

theorem sizeOf_step?_lt {v w : Json} {segment : String} (h : v.step? segment = some w) :
    sizeOf w < sizeOf v := by
  cases v with
  | obj members =>
    have : sizeOf w < sizeOf members := sizeOf_lookup_lt h
    simp
    omega
  | arr items =>
    obtain ⟨i, _, hi⟩ := Option.bind_eq_some_iff.1 h
    have := sizeOf_getElem?_lt hi
    simp
    omega
  | _ => simp [step?] at h

end Json

end FieldMask
