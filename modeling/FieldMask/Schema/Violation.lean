import FieldMask.Json.Printer
import FieldMask.Pointer
import FieldMask.Schema.Type

/-!
# Violations

How a value can fail to meet what a schema asks for, and the errors that a check reports: a
violation and the place of the value that it is about. Both are reports of the validator, which is
not part of the program, in the words that it uses.
-/

namespace FieldMask

/-- How a value violates a rule. -/
inductive Violation
  | wrongType (value : Json) (wanted : SchemaType)
  /-- The value is of none of the types of a list. -/
  | wrongTypes (value : Json) (wanted : List SchemaType)
  /-- The value of a keyword does not name a type, or is of the wrong one. -/
  | unexpectedType
  | missingMember (name : String)
  | unexpectedMembers (names : List String)
  | tooShort (value : Json) (least : Nat)
  | tooLong (value : Json) (most : Nat)
  | tooSmall (value : Json) (least : Nat)
  | notUnique (value : Json)
  | notAmong (value : Json) (choices : List Json)
  /-- The value meets none of the schemas of which it should meet one. -/
  | noAlternative (value : Json)
  | refused (value : Json)

/-- A count of items in words. -/
def itemCount (n : Nat) : String := toString n ++ (if n = 1 then " item" else " items")

/-- The wording of a violation. -/
def Violation.message : Violation → String
  | .wrongType value wanted => value.compact ++ " is not of type " ++ Json.quote wanted.name
  | .wrongTypes value wanted =>
    value.compact ++ " is not of types " ++ ", ".intercalate (wanted.map fun t => Json.quote t.name)
  | .unexpectedType => "Unexpected type"
  | .missingMember name => Json.quote name ++ " is a required property"
  | .unexpectedMembers names =>
    "Additional properties are not allowed ("
      ++ ", ".intercalate (names.map fun n => "'" ++ n ++ "'")
      ++ (if names.length = 1 then " was unexpected)" else " were unexpected)")
  | .tooShort value least => value.compact ++ " has less than " ++ itemCount least
  | .tooLong value most => value.compact ++ " has more than " ++ itemCount most
  | .tooSmall value least => value.compact ++ " is less than the minimum of " ++ toString least
  | .notUnique value => value.compact ++ " has non-unique elements"
  | .notAmong value choices => value.compact ++ " is not one of " ++ (Json.arr choices).compact
  | .noAlternative value =>
    value.compact ++ " is not valid under any of the schemas listed in the 'anyOf' keyword"
  | .refused value => "False schema does not allow " ++ value.compact

/-- A violation and the place of the value that it is about. -/
structure SchemaError where
  place : Pointer
  violation : Violation

namespace SchemaError

/-- The text of the place. -/
def path (e : SchemaError) : String := e.place.text

/-- The wording of the violation. -/
def message (e : SchemaError) : String := e.violation.message

/-- The wording of the error with its place. -/
def text (e : SchemaError) : String := e.path ++ ": " ++ e.message

end SchemaError

end FieldMask
