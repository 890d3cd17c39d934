import FieldMask.Json

/-!
# Types of schemas

The values of the `type` keyword of a JSON Schema.
-/

namespace FieldMask

/-- A type that a schema can ask for. -/
inductive SchemaType
  | array | boolean | integer | null | number | object | string
  deriving DecidableEq

namespace SchemaType

/-- The name of the type in a schema. -/
def name : SchemaType → String
  | .array => "array"
  | .boolean => "boolean"
  | .integer => "integer"
  | .null => "null"
  | .number => "number"
  | .object => "object"
  | .string => "string"

/-- All types, in the order of their names. -/
def all : List SchemaType := [.array, .boolean, .integer, .null, .number, .object, .string]

/-- The type with a name. -/
def ofName? (name : String) : Option SchemaType := all.find? (·.name == name)

end SchemaType

/-- Whether a value is of a type; a number without a fraction is an integer. -/
def Json.hasType (v : Json) : SchemaType → Bool
  | .array => v.type == .array
  | .boolean => v.type == .boolean
  | .integer => match v with
    | .num n => n.isInteger
    | _ => false
  | .null => v.type == .null
  | .number => v.type == .number
  | .object => v.type == .object
  | .string => v.type == .string

end FieldMask
