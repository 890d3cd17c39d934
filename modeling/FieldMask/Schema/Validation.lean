import FieldMask.Json.Equality
import FieldMask.Json.Size
import FieldMask.Schema.Definition
import FieldMask.Schema.External
import FieldMask.Schema.Rule
import FieldMask.Schema.Wellformed

/-!
# Validation

A value is checked against the rules of a schema. A rule speaks of the value itself or of its parts,
so checking goes down the value. All violations are reported, in the order of the keywords.

Schemas are read and values checked by a library that is not part of the program. What it does with
the keywords that the program writes is spelled out here, and in the modules for rules, references,
URIs and well-formed schemas that this one builds on. How it compares values is left open: that is a
`Comparison`, and the one that comes with the library unless another is given.
-/

namespace FieldMask

namespace Validation

/-- One violation at a place, unless the value meets the rule. -/
def expect (holds : Bool) (place : Pointer) (violation : Violation) : List SchemaError :=
  if holds then [] else [⟨place, violation⟩]

/-- The errors of a rule that speaks of the value as a whole. -/
def wholeErrors (c : Comparison) (place : Pointer) (value : Json) : Rule → List SchemaError
  | .type wanted => expect (value.hasType wanted) place (.wrongType value wanted)
  | .types wanted => expect (wanted.any value.hasType) place (.wrongTypes value wanted)
  | .choices values => expect (values.any (c.equals value)) place (.notAmong value values)
  | .required names =>
    match value.members? with
    | some members =>
      (names.filter (fun n => !Keyed.contains members n)).map fun n => ⟨place, .missingMember n⟩
    | none => []
  | .memberless =>
    match value.members? with
    | some ((_, v) :: _) => [⟨place, .refused v⟩]
    | _ => []
  | .leastItems count =>
    match value.items? with
    | some items => expect (count ≤ items.length) place (.tooShort value count)
    | none => []
  | .mostItems count =>
    match value.items? with
    | some items => expect (items.length ≤ count) place (.tooLong value count)
    | none => []
  | .uniqueItems =>
    match value.items? with
    | some items => expect (c.unique items) place (.notUnique value)
    | none => []
  | .refuse => [⟨place, .refused value⟩]
  | _ => []

/-- The error of members that a closed object does not list. -/
def unexpectedErrors (place : Pointer) (members : Members) (known : List (String × List Rule)) :
    List SchemaError :=
  match (Keyed.keys members).filter (fun n => !Keyed.contains known n) with
  | [] => []
  | names => [⟨place, .unexpectedMembers names⟩]

/-- The rules of the schema that a reference points to. -/
def rulesAt (document : Json) (text : String) : List Rule :=
  match Reference.resolve document text with
  | .ok target => ((Schema.ofJson target).rules document).toOption.getD []
  | .error _ => []

mutual

/--
The errors of a value against rules. The number is that of the references followed since the check
got to the value; one that leads back to the value for ever adds nothing.
-/
def errors (c : Comparison) (document : Json) (followed : Nat) (rules : List Rule)
    (place : Pointer) (value : Json) : List SchemaError :=
  rules.flatMap fun rule => ruleErrors c document followed place value rule
termination_by (sizeOf value, document.referenceTexts.length - followed, 1)

/-- The errors of a value against a rule. -/
def ruleErrors (c : Comparison) (document : Json) (followed : Nat) (place : Pointer) (value : Json)
    (rule : Rule) : List SchemaError :=
  match rule with
  | .properties known =>
    known.flatMap fun (name, rules) =>
      match _ : value.get? name with
      | some v => errors c document 0 rules (place.child name) v
      | none => []
  | .closed known =>
    match value with
    | .obj members =>
      memberErrors c document known [] place members ++ unexpectedErrors place members known
    | _ => []
  | .additional known others =>
    match value with
    | .obj members => memberErrors c document known others place members
    | _ => []
  | .items rules =>
    match value with
    | .arr items => itemErrors c document (fun _ => rules) place 0 items
    | _ => []
  | .itemList rules =>
    match value with
    | .arr items => itemErrors c document (fun index => rules.getD index []) place 0 items
    | _ => []
  | .follow text =>
    if followed < document.referenceTexts.length then
      errors c document (followed + 1) (rulesAt document text) place value
    else []
  | rule => wholeErrors c place value rule
termination_by (sizeOf value, document.referenceTexts.length - followed, 0)
decreasing_by
  · refine Prod.Lex.left _ _ ?_
    cases value with
    | obj members =>
      have := Json.sizeOf_lookup_lt ‹_›
      simp
      omega
    | _ => simp [Json.get?] at *
  · exact Prod.Lex.left _ _ (by simp)
  · exact Prod.Lex.left _ _ (by simp)
  · exact Prod.Lex.left _ _ (by simp)
  · exact Prod.Lex.left _ _ (by simp)
  · exact Prod.Lex.right _ (Prod.Lex.left _ _ (by omega))

/-- The errors of members against the rules of those that are known and of the others. -/
def memberErrors (c : Comparison) (document : Json) (known : List (String × List Rule))
    (others : List Rule) (place : Pointer) (members : Members) : List SchemaError :=
  match members with
  | [] => []
  | (name, value) :: rest =>
    errors c document 0 ((known.lookup name).getD others) (place.child name) value
      ++ memberErrors c document known others place rest
termination_by (sizeOf members, 0, 0)

/-- The errors of items, of which the first has the given index, against the rules of each. -/
def itemErrors (c : Comparison) (document : Json) (rules : Nat → List Rule) (place : Pointer)
    (index : Nat) (items : List Json) : List SchemaError :=
  match items with
  | [] => []
  | x :: xs =>
    errors c document 0 (rules index) (place.item index) x
      ++ itemErrors c document rules place (index + 1) xs
termination_by (sizeOf items, 0, 0)

end

end Validation

/-- Why a value is not valid. -/
inductive ValidateError
  | model (error : ModelError)
  | invalidSchema (fault : SchemaFault)
  | invalid (errors : List SchemaError)

namespace ValidateError

/-- The wording of the error. -/
def message : ValidateError → String
  | .model e => e.message
  | .invalidSchema fault => "invalid schema: " ++ fault.message
  | .invalid errors => "validation failed with " ++ toString errors.length ++ " error(s)"

/-- The exit code of a program that ends with the error. -/
def exitCode : ValidateError → Nat
  | .model _ | .invalidSchema _ => 2
  | .invalid _ => 1

end ValidateError

/-- Check a value against the well-formed schema that a document is. -/
def validateRules (document value : Json) (c : Comparison := .installed) :
    Except ValidateError Unit := do
  let rules ← ((Schema.ofJson document).rules document).mapError .invalidSchema
  match Validation.errors c document 0 rules .root value with
  | [] => return ()
  | errors => throw (.invalid errors)

/--
Check a value against the schema that a document is. References to other documents are at fault
before anything else is.
-/
def validateDocument (document value : Json) (c : Comparison := .installed) :
    Except ValidateError Unit :=
  match document.externalFault?, document.schemaViolation? with
  | some fault, _ => .error (.invalidSchema (.reference fault))
  | none, some violation => .error (.invalidSchema (.violation violation))
  | none, none => validateRules document value c

/--
Check a value against a registered model. The document of a model is well-formed by the way it is
built, and its schemas refer to parts of it alone.
-/
def Registry.validate (r : Registry) (name : String) (value : Json)
    (c : Comparison := .installed) : Except ValidateError Unit := do
  let model ← (r.lookup name).mapError .model
  validateRules (← (r.modelDocument model).mapError .model) value c

end FieldMask
