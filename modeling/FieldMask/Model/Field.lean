import FieldMask.Mask
import FieldMask.NameMap
import FieldMask.Schema.Type

/-!
# Fields and models

A model is a named list of fields. A field has a shape: a scalar of some kind, a list of items of
one field, a value of another model, or a value of one of several models told apart by a tag. Models
refer to each other by name; masking a model puts masked copies of the models it nests into its
fields.
-/

namespace FieldMask

/-- The kinds of scalar fields. -/
inductive Kind
  | string | integer | number | boolean | dateTime | date
  /-- Any value, passed through as it is. -/
  | raw
  | object
  deriving DecidableEq

namespace Kind

/-- The name of a kind in declarations. -/
def name : Kind → String
  | .string => "string"
  | .integer => "integer"
  | .number => "number"
  | .boolean => "boolean"
  | .dateTime => "datetime"
  | .date => "date"
  | .raw => "raw"
  | .object => "object"

/-- All kinds. -/
def all : List Kind := [.string, .integer, .number, .boolean, .dateTime, .date, .raw, .object]

/-- The kind with a name. -/
def ofName? (name : String) : Option Kind := all.find? (·.name == name)

/-- The type of a kind in schemas. -/
def schemaType : Kind → SchemaType
  | .string | .dateTime | .date => .string
  | .integer => .integer
  | .number => .number
  | .boolean => .boolean
  | .raw | .object => .object

/-- The format of a kind in schemas. -/
def schemaFormat? : Kind → Option String
  | .dateTime => some "date-time"
  | .date => some "date"
  | _ => none

/-- Whether the values have a structure that no model describes and a mask may still select into. -/
def isOpaque : Kind → Bool
  | .raw | .object => true
  | _ => false

end Kind

mutual

/-- What the values of a field look like. -/
inductive Shape
  /-- A value of a kind. -/
  | scalar (kind : Kind)
  /-- An array of values of one field, with optional bounds on its length. -/
  | list (items : Field) (least most : Option UInt64) (unique : Bool)
  /-- A value of another model, or an array of such. -/
  | nested (target : Target) (asList : Bool)
  /-- A value of one of several models: the tags and the names of their models. -/
  | polymorph (mapping : NameMap String)

/-- One field of a model. -/
structure Field where
  shape : Shape
  required : Bool := false
  readonly : Bool := false
  /-- Whether the field carries the name of the model that a value is of. -/
  discriminator : Bool := false
  title : Option String := none
  description : Option String := none
  /-- A value to show in documents. -/
  sample : Option Json := none
  /-- The value of the field where it is missing. -/
  default : Option Json := none
  /-- The values that the field may have. -/
  choices : Option (List Json) := none
  /-- The dotted path at which the value is found, if it is not the name of the field. -/
  source : Option String := none
  /-- The mask that is applied to the values of an opaque or polymorphic field. -/
  mask : Option Mask := none

/-- The model that a nested field refers to. -/
inductive Target
  /-- A registered model. -/
  | named (name : String)
  /-- A masked copy of a model. -/
  | masked (model : Model)

/-- A named list of fields. -/
structure Model where
  name : String
  /-- The model's own fields, in order. -/
  fields : List (String × Field) := []
  /-- The names of the models that it inherits from, in order. -/
  parents : List String := []
  /-- The mask that is applied to the model's values where no other is given. -/
  mask : Option Mask := none
  description : Option String := none
  /-- Whether values may only have the model's own fields. -/
  strict : Bool := false

end

/-- Named fields, in order. -/
abbrev Fields := List (String × Field)

namespace Target

/-- The name of the model. -/
def name : Target → String
  | .named name => name
  | .masked model => model.name

end Target

namespace Field

/-- A field of a kind. -/
def ofKind (kind : Kind) : Field := { shape := .scalar kind }

/-- A field for values of any form. -/
def raw : Field := ofKind .raw

/-- The field inside all lists. -/
def innermost : Field → Field
  | { shape := .list items _ _ _, .. } => items.innermost
  | field => field
termination_by structural field => field

/-- The names of the registered models that a field refers to, through list items too. -/
def references (field : Field) : List String :=
  match field.innermost.shape with
  | .nested (.named name) _ => [name]
  | .polymorph mapping => mapping.values
  | _ => []

end Field

namespace Model

/-- Add fields in order; a name that is present keeps its place and takes the new field. -/
def extend (model : Model) (fields : Fields) : Model :=
  { model with fields := Keyed.putAll model.fields fields }

/-- The model's own field of a name. -/
def find? (model : Model) (name : String) : Option Field := model.fields.lookup name

/-- A new model that inherits from others. -/
def inheriting (name : String) (parents : List String) (fields : Fields) : Model :=
  { name, parents, fields := Keyed.ofPairs fields }

end Model

end FieldMask
