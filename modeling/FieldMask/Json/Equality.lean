import FieldMask.Json

/-!
# Comparing values

The validator of schemas is a library that is not part of the program, and it has a way of its own
to compare values: a `Comparison` is what is taken over from there. `Comparison.installed` is that
of the validator that the program is linked with. For it `1` and `1.0` are the same value, objects
are compared member by member in order, and long lists are compared by digests.
-/

namespace FieldMask

namespace Json

mutual

/-- Equality of values, given that of numbers. -/
def equalsBy (same : Number → Number → Bool) : Json → Json → Bool
  | .null, .null => true
  | .bool a, .bool b => a == b
  | .num a, .num b => same a b
  | .str a, .str b => a == b
  | .arr a, .arr b => equalItemsBy same a b
  | .obj a, .obj b => equalMembersBy same a b
  | _, _ => false

/-- Equality of items, one by one. -/
def equalItemsBy (same : Number → Number → Bool) : List Json → List Json → Bool
  | [], [] => true
  | a :: as, b :: bs => a.equalsBy same b && equalItemsBy same as bs
  | _, _ => false

/-- Equality of members, one by one. -/
def equalMembersBy (same : Number → Number → Bool) : Members → Members → Bool
  | [], [] => true
  | (k, a) :: as, (l, b) :: bs => k == l && a.equalsBy same b && equalMembersBy same as bs
  | _, _ => false

end

/-- Equality of values, numbers by value. -/
def equals : Json → Json → Bool := equalsBy Number.equalsValue

/-- Whether no two of the items are the same. -/
def noneTwice (same : Json → Json → Bool) : List Json → Bool
  | [] => true
  | x :: xs => !xs.any (same x) && noneTwice same xs

/-- The length up to which items are compared pair by pair. -/
def pairwiseLimit : Nat := 15

/--
Whether no two of the items are equal. Longer lists are compared by digests, and those of the two
zeros differ.
-/
def unique (items : List Json) : Bool :=
  if items.length ≤ pairwiseLimit then noneTwice equals items
  else noneTwice (equalsBy Number.equalsSigned) items

end Json

/-- How a validator of schemas compares values. -/
structure Comparison where
  /-- Whether two values are the same. -/
  equals : Json → Json → Bool
  /-- Whether no two of the values are the same. -/
  unique : List Json → Bool

/-- The comparison of the validator that the program is linked with. -/
def Comparison.installed : Comparison := ⟨Json.equals, Json.unique⟩

end FieldMask
