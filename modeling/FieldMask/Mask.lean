import FieldMask.Json
import FieldMask.Text.Word

/-!
# Masks

A mask is a list of sibling selectors. A selector names a field, alone or with a mask for what is
below it, or is the wildcard, which stands for every field that no sibling names. `Mask.canonical`
is the text of a mask and `Mask.tree` its form as a JSON value.
-/

namespace FieldMask

/-- One selector of a mask. -/
inductive Selector
  /-- Every field that no sibling names. -/
  | wildcard
  /-- A field, whole. -/
  | leaf (name : String)
  /-- A field, and what to select below it. -/
  | nested (name : String) (children : List Selector)

namespace Selector

/-- The name that the wildcard goes by among its siblings. -/
def wildcardName : String := "*"

/-- The name of the field that a selector selects. -/
def name : Selector → String
  | .wildcard => wildcardName
  | .leaf name => name
  | .nested name _ => name

/-- Whether a selector is the wildcard. -/
def isWildcard : Selector → Bool
  | .wildcard => true
  | _ => false

/-- The selector that a name alone writes. -/
def ofName (name : String) : Selector := if name = wildcardName then .wildcard else .leaf name

mutual

/-- Decides whether two selectors are the same. -/
def decEq : (a b : Selector) → Decidable (a = b)
  | .wildcard, .wildcard => isTrue rfl
  | .leaf a, .leaf b => decidable_of_iff (a = b) (by simp)
  | .nested a xs, .nested b ys =>
    if h : a = b then
      match decEqList xs ys with
      | isTrue hs => isTrue (h ▸ hs ▸ rfl)
      | isFalse hs => isFalse (fun e => hs (Selector.nested.inj e).2)
    else isFalse (fun e => h (Selector.nested.inj e).1)
  | .wildcard, .leaf _ | .wildcard, .nested _ _ | .leaf _, .wildcard | .leaf _, .nested _ _
  | .nested _ _, .wildcard | .nested _ _, .leaf _ => isFalse (fun e => Selector.noConfusion e)

/-- Decides whether two lists of selectors are the same. -/
def decEqList : (a b : List Selector) → Decidable (a = b)
  | [], [] => isTrue rfl
  | [], _ :: _ | _ :: _, [] => isFalse (fun e => List.noConfusion rfl (heq_of_eq e))
  | x :: xs, y :: ys =>
    match decEq x y, decEqList xs ys with
    | isTrue h, isTrue hs => isTrue (h ▸ hs ▸ rfl)
    | isFalse h, _ => isFalse (fun e => h (List.cons.inj e).1)
    | _, isFalse hs => isFalse (fun e => hs (List.cons.inj e).2)

end

instance : DecidableEq Selector := decEq

mutual

/-- The text of a selector. -/
def canonical : Selector → String
  | .wildcard => wildcardName
  | .leaf name => name
  | .nested name children => name ++ "\x7b" ++ ",".intercalate (canonicalEach children) ++ "\x7d"

/-- The texts of siblings. -/
def canonicalEach : List Selector → List String
  | [] => []
  | s :: rest => s.canonical :: canonicalEach rest

end

/-- The text of siblings: in braces, separated by commas. -/
def canonicalList (siblings : List Selector) : String :=
  "\x7b" ++ ",".intercalate (canonicalEach siblings) ++ "\x7d"

mutual

/-- The tree of a selector: `true` for a whole field, an object for a nested selection. -/
def tree : Selector → Json
  | .nested _ children => .obj (treeMembers [] children)
  | _ => .bool true

/-- The members that siblings put one after the other. -/
def treeMembers (members : Members) : List Selector → Members
  | [] => members
  | s :: rest => treeMembers (Keyed.put s.name s.tree members) rest

end

end Selector

/-- A field mask: the selectors at its root, in order. -/
structure Mask where
  selectors : List Selector
  deriving DecidableEq

namespace Mask

/-- The mask that selects nothing. -/
def empty : Mask := ⟨[]⟩

/-- Whether the mask selects nothing. -/
def isEmpty (m : Mask) : Bool := m.selectors.isEmpty

/-- Whether the wildcard stands at the root. -/
def hasWildcard (m : Mask) : Bool := m.selectors.any Selector.isWildcard

/-- The first selector at the root that goes by a name. -/
def find? (m : Mask) (name : String) : Option Selector := m.selectors.find? (·.name == name)

/-- The text of a mask. -/
def canonical (m : Mask) : String := Selector.canonicalList m.selectors

/-- The tree of a mask as a JSON value. -/
def tree (m : Mask) : Json := .obj (Selector.treeMembers [] m.selectors)

end Mask

end FieldMask
