import FieldMask.Schema.Basic
import FieldMask.Schema.Reference

/-!
# Rules

What a schema asks for, keyword by keyword, once `allOf` and references are replaced by the rules of
the schemas that they lead to: these speak of the same value. `Schema.rules` reads the rules off a
schema and fails at the first keyword that cannot be read and the first reference that leads
nowhere.

A reference is replaced where it is first met. Met again, it is left as `Rule.follow`, to be looked
up when a value gets there, so that a schema may contain itself; but where the schema that it leads
to has that same reference for a keyword of its own, it adds nothing.

The rules are those of the validator, which is not part of the program; of the keywords it knows,
they cover those that the program writes.
-/

namespace FieldMask

/-- What is wrong with a schema. -/
inductive SchemaFault
  | reference (fault : ReferenceFault)
  /-- A part of the schema is not what schemas have to be. -/
  | violation (violation : Violation)

/-- The wording of the fault. -/
def SchemaFault.message : SchemaFault → String
  | .reference f => f.message
  | .violation v => v.message

/-- A rule for a value or its parts. -/
inductive Rule
  | type (wanted : SchemaType)
  /-- One of some types. -/
  | types (wanted : List SchemaType)
  | choices (values : List Json)
  | properties (members : List (String × List Rule))
  /-- The properties of an object that has no others. -/
  | closed (members : List (String × List Rule))
  /-- The properties of an object, and the rules for its other members. -/
  | additional (members : List (String × List Rule)) (others : List Rule)
  /-- An object without members. -/
  | memberless
  | required (names : List String)
  /-- Rules for every item. -/
  | items (rules : List Rule)
  /-- Rules for each of the first items. -/
  | itemList (rules : List (List Rule))
  | leastItems (count : Nat)
  | mostItems (count : Nat)
  | uniqueItems
  | refuse
  /-- The rules of the schema that a reference points to. -/
  | follow (text : String)

/-- The reference that a schema has for a keyword of its own. -/
def Json.ownReference? (schema : Json) : Option String := (schema.get? "$ref").bind Json.str?

/-- A reading of rules: it knows the references met so far, in their normal forms. -/
abbrev RuleReader := StateT (List String) (Except SchemaFault)

/-- The value that a reference points to. -/
def RuleReader.resolve (document : Json) (text : String) : RuleReader Json :=
  match Reference.resolve document text with
  | .ok target => return target
  | .error fault => throw (.reference fault)

namespace Schema

mutual

/-- The rules of a schema. At most the given number of references are replaced inside each other. -/
def read (document : Json) (depth : Nat) (schema : Schema) : RuleReader (List Rule) :=
  match schema with
  | .always true => return []
  | .always false => return [.refuse]
  | .keywords list => readKeywords document depth list
termination_by (depth, sizeOf schema)

/-- The rules of keywords. -/
def readKeywords (document : Json) (depth : Nat) (list : List Keyword) : RuleReader (List Rule) :=
  match list with
  | [] => return []
  | k :: rest => return (← readKeyword document depth k) ++ (← readKeywords document depth rest)
termination_by (depth, sizeOf list)

/-- The rules of a keyword. -/
def readKeyword (document : Json) (depth : Nat) (keyword : Keyword) : RuleReader (List Rule) :=
  match keyword with
  | .type wanted => return [.type wanted]
  | .types wanted => return [.types wanted]
  | .choices values => return [.choices values]
  | .properties members => return [.properties (← readProperties document depth members)]
  | .closed members => return [.closed (← readProperties document depth members)]
  | .additional members others =>
    return [.additional (← readProperties document depth members) (← read document depth others)]
  | .memberless => return [.memberless]
  | .required names => return [.required names]
  | .items schema => return [.items (← read document depth schema)]
  | .itemList schemas => return [.itemList (← readEach document depth schemas)]
  | .leastItems count => return [.leastItems count]
  | .mostItems count => return [.mostItems count]
  | .uniqueItems => return [.uniqueItems]
  | .allOf schemas => return (← readEach document depth schemas).flatten
  | .malformed violation => throw (.violation violation)
  | .reference text => do
    let target ← RuleReader.resolve document text
    let form := Reference.form text
    if (← get).contains form then
      return if target.ownReference? = some text then [] else [.follow text]
    else
      match depth with
      | 0 => return [.follow text]
      | depth + 1 =>
        modify (form :: ·)
        read document depth (ofJson target)
termination_by (depth, sizeOf keyword)

/-- The rules of the schemas of properties. -/
def readProperties (document : Json) (depth : Nat) (members : List (String × Schema)) :
    RuleReader (List (String × List Rule)) :=
  match members with
  | [] => return []
  | (name, schema) :: rest =>
    return (name, ← read document depth schema) :: (← readProperties document depth rest)
termination_by (depth, sizeOf members)

/-- The rules of each of some schemas. -/
def readEach (document : Json) (depth : Nat) (schemas : List Schema) :
    RuleReader (List (List Rule)) :=
  match schemas with
  | [] => return []
  | s :: rest => return (← read document depth s) :: (← readEach document depth rest)
termination_by (depth, sizeOf schemas)

end

/-- The rules of a schema in a document, none of its references met before. -/
def rules (document : Json) (schema : Schema) : Except SchemaFault (List Rule) :=
  Prod.fst <$> (schema.read document document.referenceTexts.length).run []

end Schema

end FieldMask
