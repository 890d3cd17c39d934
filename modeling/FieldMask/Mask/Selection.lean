import FieldMask.Mask.Error

/-!
# Applying masks to values

A mask picks members of an object in the order of its selectors. A member that the object lacks
comes out as null, or is left out when missing members are skipped; the wildcard adds the members
that are not picked yet. Arrays are filtered item by item, without using up a level of the mask. A
selection below a scalar is an inconsistency.
-/

namespace FieldMask

namespace Json

mutual

/--
Replace the objects of a value that arrays lead to. Any other value in their place is inconsistent.
-/
def mapObjects (f : Pointer → Members → Except Inconsistency Members) (place : Pointer) :
    Json → Except Inconsistency Json
  | .arr items => do return .arr (← mapObjectsFrom f place 0 items)
  | .obj members => do return .obj (← f place members)
  | _ => .error ⟨place⟩

/-- Replace the objects of items, of which the first has the given index. -/
def mapObjectsFrom (f : Pointer → Members → Except Inconsistency Members) (place : Pointer)
    (index : Nat) : List Json → Except Inconsistency (List Json)
  | [] => .ok []
  | x :: xs => do
    let x ← x.mapObjects f (place.item index)
    return x :: (← mapObjectsFrom f place (index + 1) xs)

end

end Json

namespace Selector

/-- What the wildcard adds, if it is among the siblings: the members not picked yet. -/
def addRest (siblings : List Selector) (data picked : Members) : Members :=
  if siblings.any isWildcard then picked ++ data.filter (fun m => !Keyed.contains picked m.1)
  else picked

mutual

/-- Pick one selector's member and put it to those picked before. -/
def pick (skipMissing : Bool) (place : Pointer) (data picked : Members) :
    Selector → Except Inconsistency Members
  | .wildcard => .ok picked
  | .leaf name =>
    match data.lookup name with
    | none => .ok (if skipMissing then picked else Keyed.put name .null picked)
    | some value => .ok (Keyed.put name value picked)
  | .nested name children =>
    match data.lookup name with
    | none => .ok (if skipMissing then picked else Keyed.put name .null picked)
    | some .null => .ok (Keyed.put name .null picked)
    | some value => do
      let below (place : Pointer) (members : Members) : Except Inconsistency Members := do
        return addRest children members (← pickAll skipMissing place members [] children)
      let value ← value.mapObjects below (place.child name)
      return Keyed.put name value picked

/-- Pick the siblings' members, one after the other. -/
def pickAll (skipMissing : Bool) (place : Pointer) (data picked : Members) :
    List Selector → Except Inconsistency Members
  | [] => .ok picked
  | s :: rest => do pickAll skipMissing place data (← s.pick skipMissing place data picked) rest

end

/-- The members of an object that siblings select. -/
def filter (siblings : List Selector) (skipMissing : Bool) (place : Pointer) (data : Members) :
    Except Inconsistency Members := do
  return addRest siblings data (← pickAll skipMissing place data [] siblings)

end Selector

/-- What a mask selects of a value. -/
def Mask.apply (mask : Mask) (skipMissing : Bool) (value : Json) : Except Inconsistency Json :=
  value.mapObjects (Selector.filter mask.selectors skipMissing) .root

end FieldMask
