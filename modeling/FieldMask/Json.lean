import FieldMask.Keyed
import FieldMask.Number

/-!
# JSON values

A JSON value keeps the members of an object in insertion order. `Json.Distinct` says that no object
in it writes a key twice; the reader and every function of this library build such values.
-/

namespace FieldMask

/-- A JSON value. -/
inductive Json
  | null
  | bool (value : Bool)
  | num (value : Number)
  | str (value : String)
  | arr (items : List Json)
  | obj (members : List (String × Json))

/-- The members of an object, in order. -/
abbrev Members := List (String × Json)

/-- The six types of JSON values. -/
inductive JsonType
  | null | boolean | number | string | array | object
  deriving DecidableEq

/-- The name of a type in messages. -/
def JsonType.name : JsonType → String
  | .null => "null"
  | .boolean => "boolean"
  | .number => "number"
  | .string => "string"
  | .array => "array"
  | .object => "object"

namespace Json

instance : Inhabited Json := ⟨.null⟩

/-! ### Equality -/

mutual

/-- Decides whether two values are the same, member order included. -/
def decEq : (a b : Json) → Decidable (a = b)
  | .null, .null => isTrue rfl
  | .bool a, .bool b => decidable_of_iff (a = b) (by simp)
  | .num a, .num b => decidable_of_iff (a = b) (by simp)
  | .str a, .str b => decidable_of_iff (a = b) (by simp)
  | .arr a, .arr b =>
    match decEqItems a b with
    | isTrue h => isTrue (h ▸ rfl)
    | isFalse h => isFalse (fun e => h (Json.arr.inj e))
  | .obj a, .obj b =>
    match decEqMembers a b with
    | isTrue h => isTrue (h ▸ rfl)
    | isFalse h => isFalse (fun e => h (Json.obj.inj e))
  | .null, .bool _ | .null, .num _ | .null, .str _ | .null, .arr _ | .null, .obj _
  | .bool _, .null | .bool _, .num _ | .bool _, .str _ | .bool _, .arr _ | .bool _, .obj _
  | .num _, .null | .num _, .bool _ | .num _, .str _ | .num _, .arr _ | .num _, .obj _
  | .str _, .null | .str _, .bool _ | .str _, .num _ | .str _, .arr _ | .str _, .obj _
  | .arr _, .null | .arr _, .bool _ | .arr _, .num _ | .arr _, .str _ | .arr _, .obj _
  | .obj _, .null | .obj _, .bool _ | .obj _, .num _ | .obj _, .str _ | .obj _, .arr _ =>
    isFalse (fun e => Json.noConfusion e)

/-- Decides whether two lists of items are the same. -/
def decEqItems : (a b : List Json) → Decidable (a = b)
  | [], [] => isTrue rfl
  | [], _ :: _ | _ :: _, [] => isFalse (fun e => List.noConfusion rfl (heq_of_eq e))
  | x :: xs, y :: ys =>
    match decEq x y, decEqItems xs ys with
    | isTrue h, isTrue hs => isTrue (h ▸ hs ▸ rfl)
    | isFalse h, _ => isFalse (fun e => h (List.cons.inj e).1)
    | _, isFalse hs => isFalse (fun e => hs (List.cons.inj e).2)

/-- Decides whether two lists of members are the same. -/
def decEqMembers : (a b : Members) → Decidable (a = b)
  | [], [] => isTrue rfl
  | [], _ :: _ | _ :: _, [] => isFalse (fun e => List.noConfusion rfl (heq_of_eq e))
  | (k, x) :: xs, (l, y) :: ys =>
    if hk : k = l then
      match decEq x y, decEqMembers xs ys with
      | isTrue h, isTrue hs => isTrue (hk ▸ h ▸ hs ▸ rfl)
      | isFalse h, _ => isFalse (fun e => h (Prod.mk.inj (List.cons.inj e).1).2)
      | _, isFalse hs => isFalse (fun e => hs (List.cons.inj e).2)
    else isFalse (fun e => hk (Prod.mk.inj (List.cons.inj e).1).1)

end

instance : DecidableEq Json := decEq

/-! ### Shape -/

/-- The type of a value. -/
def type : Json → JsonType
  | .null => .null
  | .bool _ => .boolean
  | .num _ => .number
  | .str _ => .string
  | .arr _ => .array
  | .obj _ => .object

/-- The member of an object under a key. -/
def get? : Json → String → Option Json
  | .obj members, key => members.lookup key
  | _, _ => none

/-- The items of an array. -/
def items? : Json → Option (List Json)
  | .arr items => some items
  | _ => none

/-- The members of an object. -/
def members? : Json → Option Members
  | .obj members => some members
  | _ => none

/-- The text of a string. -/
def str? : Json → Option String
  | .str s => some s
  | _ => none

/-- A 64-bit word as a value. -/
def ofWord (n : UInt64) : Json :=
  .num (.int n.toNat ⟨by omega, by have := n.toNat_lt; omega⟩)

/-- A list of strings as an array. -/
def strings (names : List String) : Json := .arr (names.map .str)

/-- An optional string, null without one. -/
def ofString? : Option String → Json
  | some s => .str s
  | none => .null

/-- The members that are not null. -/
def withoutNulls (members : Members) : Members := members.filter (fun m => m.2 != .null)

mutual

/-- No object of the value has a key twice. -/
def Distinct : Json → Prop
  | .arr items => DistinctItems items
  | .obj members => (Keyed.keys members).Nodup ∧ DistinctMembers members
  | _ => True

/-- No object in the items has a key twice. -/
def DistinctItems : List Json → Prop
  | [] => True
  | x :: xs => x.Distinct ∧ DistinctItems xs

/-- No object in the members' values has a key twice. -/
def DistinctMembers : Members → Prop
  | [] => True
  | (_, x) :: xs => x.Distinct ∧ DistinctMembers xs

end

end Json

end FieldMask
