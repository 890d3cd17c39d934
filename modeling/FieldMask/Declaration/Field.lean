import FieldMask.Json.Record
import FieldMask.Json.Size
import FieldMask.Mask.Parser
import FieldMask.Model.Field

/-!
# Declarations of fields

A field is declared by a record whose `type` names a kind, or is `list`, `nested` or `polymorph`.
The path of an error is that of the declaration, with the names of fields written as they are.
-/

namespace FieldMask

/-- Why a declaration is refused. -/
inductive DeclarationFault
  | record (error : RecordError)
  /-- The document does not hold an array of declarations. -/
  | noModels
  | inheritsAndClones
  | listWithoutItems
  | nestedWithoutModel
  | polymorphWithoutMapping
  | unknownType (name : String)
  deriving DecidableEq

/-- The wording of the fault. -/
def DeclarationFault.message : DeclarationFault → String
  | .record e => e.message
  | .noModels => "expected an array of model declarations"
  | .inheritsAndClones => "\x60inherits\x60 and \x60clone\x60 are mutually exclusive"
  | .listWithoutItems => "list field requires \x60items\x60"
  | .nestedWithoutModel => "nested field requires \x60model\x60"
  | .polymorphWithoutMapping => "polymorph field requires a non-empty \x60mapping\x60"
  | .unknownType name => "unknown field type '" ++ name ++ "'"

/-- What is wrong with a declaration, and the path of the part that it is wrong with. -/
inductive DeclarationError
  | invalid (path : String) (fault : DeclarationFault)
  | invalidMask (path : String) (error : MaskParseError)
  deriving DecidableEq

/--
The members of a field's declaration. The declaration of a list's items is left where it is written.
-/
structure FieldDeclaration where
  type : String := ""
  model : Option String := none
  asList : Bool := false
  mapping : List (String × String) := []
  required : Bool := false
  readonly : Bool := false
  discriminator : Bool := false
  title : Option String := none
  description : Option String := none
  sample : Option Json := none
  default : Option Json := none
  source : Option String := none
  choices : Option (List Json) := none
  leastItems : Option UInt64 := none
  mostItems : Option UInt64 := none
  unique : Bool := false
  mask : Option String := none

namespace FieldDeclaration

open Json Record

/-- The record that declares a field. -/
def record : Record FieldDeclaration where
  name := "FieldDecl"
  members := [
    neededMember "type" readText (fun d v => { d with type := v }),
    member "items" (readOptional .ok) (fun d _ => d),
    member "model" (readOptional readText) (fun d v => { d with model := v }),
    member "as_list" readBoolean (fun d v => { d with asList := v }),
    member "mapping" readTextMap (fun d v => { d with mapping := v }),
    member "required" readBoolean (fun d v => { d with required := v }),
    member "readonly" readBoolean (fun d v => { d with readonly := v }),
    member "discriminator" readBoolean (fun d v => { d with discriminator := v }),
    member "title" (readOptional readText) (fun d v => { d with title := v }),
    member "description" (readOptional readText) (fun d v => { d with description := v }),
    member "example" (readOptional .ok) (fun d v => { d with sample := v }),
    member "default" (readOptional .ok) (fun d v => { d with default := v }),
    member "attribute" (readOptional readText) (fun d v => { d with source := v }),
    member "enum" (readOptional readItems?) (fun d v => { d with choices := v }),
    member "min_items" (readOptional readCount) (fun d v => { d with leastItems := v }),
    member "max_items" (readOptional readCount) (fun d v => { d with mostItems := v }),
    member "unique" readBoolean (fun d v => { d with unique := v }),
    member "mask" (readOptional readText) (fun d v => { d with mask := v })]

/-- The declaration of a list's items inside that of the list, if there is one. -/
def itemsOf? : Json → Option Json
  | .obj members => (members.lookup "items").filter (· != .null)
  | .arr (_ :: items :: _) => some items |>.filter (· != .null)
  | _ => none

theorem sizeOf_itemsOf?_lt {v items : Json} (h : itemsOf? v = some items) :
    sizeOf items < sizeOf v := by
  unfold itemsOf? at h
  split at h
  · have := sizeOf_lookup_lt (Option.filter_eq_some_iff.1 h).1
    simp
    omega
  · have := Option.some.inj (Option.filter_eq_some_iff.1 h).1
    subst this
    simp
    omega
  · simp at h

/-- The field of a shape that has the other members of the declaration. -/
def toField (d : FieldDeclaration) (shape : Shape) (mask : Option Mask) : Field where
  shape
  required := d.required
  readonly := d.readonly
  discriminator := d.discriminator
  title := d.title
  description := d.description
  sample := d.sample
  default := d.default
  choices := d.choices
  source := d.source
  mask

end FieldDeclaration

namespace Declaration

/-- A mask that is declared at a path. -/
def readMask (path : String) (text : String) : Except DeclarationError Mask :=
  (Mask.parse text).mapError (.invalidMask path)

/-- An optional mask that is declared at a path. -/
def readMask? (path : String) : Option String → Except DeclarationError (Option Mask)
  | none => .ok none
  | some text => do return some (← readMask path text)

/-- The shape of a field that is not a list. -/
def shapeOf (path : String) (d : FieldDeclaration) : Except DeclarationError Shape :=
  if d.type = "nested" then
    match d.model with
    | some model => .ok (.nested (.named model) d.asList)
    | none => .error (.invalid path .nestedWithoutModel)
  else if d.type = "polymorph" then
    if d.mapping.isEmpty then .error (.invalid path .polymorphWithoutMapping)
    else .ok (.polymorph (.ofPairs d.mapping))
  else match Kind.ofName? d.type with
    | some kind => .ok (.scalar kind)
    | none => .error (.invalid path (.unknownType d.type))

/-- The field that is declared at a path. -/
def readField (path : String) (value : Json) : Except DeclarationError Field := do
  let d ← (FieldDeclaration.record.read {} value).mapError fun e => .invalid path (.record e)
  let shape ←
    if d.type = "list" then
      match _ : FieldDeclaration.itemsOf? value with
      | some items => do
        let items ← readField (path ++ "/items") items
        pure (.list items d.leastItems d.mostItems d.unique)
      | none => throw (.invalid path .listWithoutItems)
    else shapeOf path d
  return d.toField shape (← readMask? (path ++ "/mask") d.mask)
termination_by sizeOf value
decreasing_by exact FieldDeclaration.sizeOf_itemsOf?_lt ‹_›

end Declaration

end FieldMask
