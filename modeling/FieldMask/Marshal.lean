import FieldMask.Marshal.Coercion
import FieldMask.Marshal.Path
import FieldMask.Mask.Selection
import FieldMask.Model.Ancestry
import FieldMask.Model.Masked

/-!
# Marshalling

A value is shaped to a model: only the fields of the flattened model come out, in their order, each
read from the value, coerced to its kind and shaped in turn. A missing or null value gives the
default of its field. The discriminator always names the model. A mask, given or else the model's
own, is applied to the fields before; names that the model lacks are skipped. Arrays are marshalled
item by item.

Every step from a model to the value of one of its fields goes to a strict part of the value, so
models that nest each other do no harm.
-/

namespace FieldMask

/-- Why a value cannot be marshalled. -/
inductive MarshalError
  | mask (error : MaskError)
  | model (error : ModelError)
  | invalidValue (place : Pointer) (expected : Expectation) (actual : JsonType)
  /-- The tag of a polymorphic value, if it has one, names none of the models. -/
  | unmatchedType (place : Pointer) (tag : Option String)
  deriving DecidableEq

/-- The wording of the error. -/
def MarshalError.message : MarshalError → String
  | .mask e => e.message
  | .model e => e.message
  | .invalidValue place expected actual =>
    "invalid value at " ++ place.shown ++ ": expected " ++ expected.description ++ ", got "
      ++ actual.name
  | .unmatchedType place tag =>
    "unmatched type at " ++ place.shown ++ ": " ++ tag.getD "no discriminator value"

/-- How a value is marshalled. -/
structure MarshalOptions where
  /-- The mask in place of that of the model. -/
  mask : Option Mask := none
  /-- Whether null and empty entries are left out. -/
  skipNone : Bool := false
  /-- The key that the output is wrapped under. -/
  envelope : Option String := none

namespace Marshal

/-- The outcome of marshalling a value. -/
abbrev Result := Except MarshalError

/-- An error of models as one of marshalling. -/
def liftModel {α : Type} (x : Except ModelError α) : Result α := x.mapError .model

/-- A value coerced to a kind. -/
def coerce (kind : Kind) (place : Pointer) (value : Json) : Result Json :=
  (kind.coerce value).mapError fun expected => .invalidValue place expected value.type

/-- What comes out for a field without a value. -/
def absent (field : Field) (place : Pointer) : Result Json :=
  match field.shape, field.default with
  | .scalar kind, some value => coerce kind place value
  | _, some value => .ok value
  | _, none => .ok .null

/-- What comes out for a scalar value. -/
def scalar (field : Field) (kind : Kind) (place : Pointer) (value : Json) : Result Json :=
  if kind.isOpaque then
    match field.mask with
    | some mask => (mask.apply true value).mapError fun e => .mask (.inconsistent e)
    | none => .ok value
  else coerce kind place value

/-- The fields of a model that come out: those that the mask selects, if there is one. -/
def outputFields (r : Registry) (flat : FlatModel) (mask : Option Mask) (place : Pointer) :
    Result Fields :=
  match mask.or flat.mask with
  | some mask => do
    let masked ← (r.maskFlat true mask.selectors place flat).mapError .mask
    return masked.fields
  | none => .ok flat.fields

/-- The tag that a polymorphic value has under the discriminator of the common ancestor. -/
def tagOf (ancestor : FlatModel) (value : Json) : Option String := do
  let discriminator ← ancestor.discriminator
  let key := ((ancestor.find? discriminator).bind (·.source)).getD discriminator
  let members ← value.members?
  (← Json.atPath? members key).str?

/-- The model that the tag of a polymorphic value names. -/
def matchedModel (r : Registry) (mapping : NameMap String) (place : Pointer) (value : Json) :
    Result Model := do
  let ancestor ← liftModel (r.commonAncestor mapping.values)
  let tag := tagOf (← liftModel (r.resolve ancestor)) value
  match tag.bind mapping.find? with
  | some name => liftModel (r.lookup name)
  | none => throw (.unmatchedType place tag)

/-- The model that a nested field refers to. -/
def targetModel (r : Registry) : Target → Result Model
  | .named name => liftModel (r.lookup name)
  | .masked model => .ok model

/-- Whether an entry is null or an empty object. -/
def isNone : Json → Bool
  | .null => true
  | .obj members => members.isEmpty
  | _ => false

/-- The path at which the value of a field is read. -/
def sourceOf (name : String) (field : Field) : String := field.source.getD name

mutual

/-- Shape a value to a model. Null is taken for an object without members. -/
def model (r : Registry) (skipNone : Bool) (m : Model) (mask : Option Mask) (place : Pointer)
    (value : Json) : Result Json :=
  match value with
  | .arr items => do return .arr (← modelItems r skipNone m mask place 0 items)
  | value =>
    if value.type = .object ∨ value.type = .null then do
      let flat ← liftModel (r.resolve m)
      let fields ← outputFields r flat mask place
      let entries ← fields.filterMapM fun (name, field) => do
        let entry ←
          if field.discriminator then pure (Json.str flat.name)
          else match _ : Json.atPath? value.membersOrNone (sourceOf name field) with
            | some v => fieldValue r skipNone field (place.child name) v
            | none => absent field (place.child name)
        return if skipNone && isNone entry then none else some (name, entry)
      return .obj entries
    else .error (.invalidValue place .object value.type)
termination_by (sizeOf value, 0)
decreasing_by
  · exact Prod.Lex.left _ _ (by simp)
  · exact Prod.Lex.left _ _ (Json.sizeOf_atPath?_membersOrNone_lt ‹_›)

/-- Shape items to a model, of which the first has the given index. -/
def modelItems (r : Registry) (skipNone : Bool) (m : Model) (mask : Option Mask) (place : Pointer)
    (index : Nat) (items : List Json) : Result (List Json) :=
  match items with
  | [] => .ok []
  | x :: xs => do
    let x ← model r skipNone m mask (place.item index) x
    return x :: (← modelItems r skipNone m mask place (index + 1) xs)
termination_by (sizeOf items, 0)

/-- Shape a value to a field. -/
def fieldValue (r : Registry) (skipNone : Bool) (field : Field) (place : Pointer) (value : Json) :
    Result Json :=
  match value with
  | .null => absent field place
  | value =>
    match field.shape with
    | .scalar kind => scalar field kind place value
    | .list items _ _ _ =>
      match value with
      | .arr values => do return .arr (← fieldItems r skipNone items place 0 values)
      | value => .error (.invalidValue place .array value.type)
    | .nested target asList => do
      let target ← targetModel r target
      if asList && value.items?.isNone then throw (.invalidValue place .array value.type)
      model r skipNone target none place value
    | .polymorph mapping => do
      let target ← matchedModel r mapping place value
      model r skipNone target field.mask place value
termination_by (sizeOf value, 1)

/-- Shape items to a field, of which the first has the given index. -/
def fieldItems (r : Registry) (skipNone : Bool) (field : Field) (place : Pointer) (index : Nat)
    (items : List Json) : Result (List Json) :=
  match items with
  | [] => .ok []
  | x :: xs => do
    let x ← fieldValue r skipNone field (place.item index) x
    return x :: (← fieldItems r skipNone field place (index + 1) xs)
termination_by (sizeOf items, 1)

end

end Marshal

/-- Marshal a value against a registered model. -/
def marshal (r : Registry) (options : MarshalOptions) (name : String) (value : Json) :
    Except MarshalError Json := do
  let m ← Marshal.liftModel (r.lookup name)
  let out ← Marshal.model r options.skipNone m options.mask .root value
  return match options.envelope with
    | some key => .obj [(key, out)]
    | none => out

end FieldMask
