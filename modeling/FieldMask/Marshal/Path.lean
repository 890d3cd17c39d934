import FieldMask.Json.Size
import FieldMask.Text.Split

/-!
# Dotted paths

A field is read from an object under its key. A key that the object lacks is taken apart at its dots
and followed through members and array items.
-/

namespace FieldMask

namespace Json

/-- The value at a dotted path in an object; a member of the very name comes first. -/
def atPath? (members : Members) (key : String) : Option Json :=
  match members.lookup key with
  | some v => some v
  | none =>
    match (splitAt '.' key.toList).map String.ofList with
    | [] => none
    | first :: rest => do rest.foldlM step? (← members.lookup first)

theorem sizeOf_foldlM_step?_le {segments : List String} {v w : Json}
    (h : segments.foldlM step? v = some w) : sizeOf w ≤ sizeOf v := by
  induction segments generalizing v with
  | nil =>
    have : v = w := by simpa using h
    exact Nat.le_of_eq (congrArg sizeOf this.symm)
  | cons s rest ih =>
    rw [List.foldlM_cons] at h
    obtain ⟨u, hu, hw⟩ := Option.bind_eq_some_iff.1 h
    have := sizeOf_step?_lt hu
    have := ih hw
    omega

theorem sizeOf_atPath?_lt {members : Members} {key : String} {v : Json}
    (h : atPath? members key = some v) : sizeOf v < sizeOf members := by
  unfold atPath? at h
  split at h
  · rename_i hl
    rw [← Option.some.inj h]
    exact sizeOf_lookup_lt hl
  · split at h
    · simp at h
    · obtain ⟨u, hu, hw⟩ := Option.bind_eq_some_iff.1 h
      have := sizeOf_lookup_lt hu
      have := sizeOf_foldlM_step?_le hw
      omega

theorem atPath?_nil (key : String) : atPath? [] key = none := by
  unfold atPath?
  split
  · simp_all
  · split <;> rfl

/-- The members of an object; a value of another type has none. -/
def membersOrNone (value : Json) : Members := value.members?.getD []

theorem sizeOf_atPath?_membersOrNone_lt {value v : Json} {key : String}
    (h : atPath? value.membersOrNone key = some v) : sizeOf v < sizeOf value := by
  have hlt := sizeOf_atPath?_lt h
  cases value with
  | obj members =>
    simp only [membersOrNone, members?, Option.getD_some] at hlt
    simp
    omega
  | _ =>
    simp only [membersOrNone, members?, Option.getD_none, atPath?_nil] at h
    exact nomatch h

end Json

end FieldMask
