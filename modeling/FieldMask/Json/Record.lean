import FieldMask.Json
import FieldMask.Text.Escaped

/-!
# Records written as JSON

A record with named members is written as an object, or as an array that gives the members in their
declared order. `Record.read` takes the members in the order in which they are written and stops at
the first one that is unknown or of a wrong type; members that must be there are looked for at the
end.
-/

namespace FieldMask

/-- What is wanted where a value of another form was found. -/
inductive Wanted
  | text | boolean | sequence | map | count
  /-- A record, by its name. -/
  | record (name : String)
  deriving DecidableEq

/-- The wording of what is wanted. -/
def Wanted.description : Wanted → String
  | .text => "a string"
  | .boolean => "a boolean"
  | .sequence => "a sequence"
  | .map => "a map"
  | .count => "usize"
  | .record name => "struct " ++ name

/-- The wording of what was found. -/
def Json.found : Json → String
  | .null => "null"
  | .bool true => "boolean \x60true\x60"
  | .bool false => "boolean \x60false\x60"
  | .num (.int z _) => "integer \x60" ++ Number.intText z ++ "\x60"
  | .num (.float x) => "floating point \x60" ++ (Number.float x).text ++ "\x60"
  | .str s => "string " ++ showText s
  | .arr _ => "sequence"
  | .obj _ => "map"

/-- Why a value is not the record that is wanted. -/
inductive RecordError
  | wrongType (found : Json) (wanted : Wanted)
  | negativeCount (found : Int)
  | unknownMember (name : String) (known : List String)
  | missingMember (name : String)
  | tooShort (length : Nat) (record : String) (members : Nat)
  | tooLong (length : Nat)
  deriving DecidableEq

/-- The wording of the error. -/
def RecordError.message : RecordError → String
  | .wrongType found wanted =>
    "invalid type: " ++ found.found ++ ", expected " ++ wanted.description
  | .negativeCount found =>
    "invalid value: integer \x60" ++ Number.intText found ++ "\x60, expected "
      ++ Wanted.count.description
  | .unknownMember name known =>
    "unknown field \x60" ++ name ++ "\x60, expected one of "
      ++ ", ".intercalate (known.map fun k => "\x60" ++ k ++ "\x60")
  | .missingMember name => "missing field \x60" ++ name ++ "\x60"
  | .tooShort length record members =>
    "invalid length " ++ toString length ++ ", expected struct " ++ record ++ " with "
      ++ toString members ++ " elements"
  | .tooLong length => "invalid length " ++ toString length ++ ", expected fewer elements in array"

namespace Json

/-- The text of a string. -/
def readText : Json → Except RecordError String
  | .str s => .ok s
  | v => .error (.wrongType v .text)

/-- The value of a boolean. -/
def readBoolean : Json → Except RecordError Bool
  | .bool b => .ok b
  | v => .error (.wrongType v .boolean)

/-- A count: an integer that is not negative. -/
def readCount : Json → Except RecordError UInt64
  | .num (.int z _) => if z < 0 then .error (.negativeCount z) else .ok (.ofNat z.toNat)
  | v => .error (.wrongType v .count)

/-- The items of an array. -/
def readItems? : Json → Except RecordError (List Json)
  | .arr items => .ok items
  | v => .error (.wrongType v .sequence)

/-- The items of an array of strings. -/
def readTexts (v : Json) : Except RecordError (List String) := do (← v.readItems?).mapM readText

/-- The members of an object. -/
def readMap : Json → Except RecordError Members
  | .obj members => .ok members
  | v => .error (.wrongType v .map)

/-- The members of an object of strings. -/
def readTextMap (v : Json) : Except RecordError (List (String × String)) := do
  (← v.readMap).mapM fun (name, value) => return (name, ← value.readText)

/-- A value that may be null. -/
def readOptional {α : Type} (read : Json → Except RecordError α) :
    Json → Except RecordError (Option α)
  | .null => .ok none
  | v => do return some (← read v)

end Json

/-- One member of a record that is read into a value of type `σ`. -/
structure RecordMember (σ : Type) where
  name : String
  /-- Whether the member has to be written. -/
  needed : Bool
  /-- Store what is written for the member. -/
  store : σ → Json → Except RecordError σ

/-- A record: its name and its members in declared order. -/
structure Record (σ : Type) where
  name : String
  members : List (RecordMember σ)

namespace Record

variable {σ : Type}

/-- A member whose value is read and then put into the record. -/
def member {α : Type} (name : String) (read : Json → Except RecordError α) (put : σ → α → σ) :
    RecordMember σ :=
  ⟨name, false, fun s v => do return put s (← read v)⟩

/-- A member that has to be written. -/
def neededMember {α : Type} (name : String) (read : Json → Except RecordError α) (put : σ → α → σ) :
    RecordMember σ :=
  { member name read put with needed := true }

/-- The names of the members. -/
def memberNames (r : Record σ) : List String := r.members.map (·.name)

/-- Read the members of an object, in the order in which they are written. -/
def readMembers (r : Record σ) (start : σ) (written : Members) : Except RecordError σ := do
  let s ← written.foldlM (fun s (name, value) =>
    match r.members.find? (·.name == name) with
    | some m => m.store s value
    | none => .error (.unknownMember name r.memberNames)) start
  match r.members.find? (fun m => m.needed && !Keyed.contains written m.name) with
  | some m => .error (.missingMember m.name)
  | none => return s

/-- Read the items of an array as the members in declared order. -/
def readItems (r : Record σ) (start : σ) (items : List Json) : Except RecordError σ := do
  let s ← (r.members.zip items).foldlM (fun s (m, value) => m.store s value) start
  match (r.members.drop items.length).findIdx? (·.needed) with
  | some i => .error (.tooShort (items.length + i) r.name r.members.length)
  | none => if r.members.length < items.length then .error (.tooLong items.length) else return s

/-- Read a record over the values that its members have when they are not written. -/
def read (r : Record σ) (start : σ) : Json → Except RecordError σ
  | .obj written => r.readMembers start written
  | .arr items => r.readItems start items
  | v => .error (.wrongType v (.record r.name))

end Record

end FieldMask
