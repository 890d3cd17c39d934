import FieldMask.Pointer
import FieldMask.Text.Split
import FieldMask.Uri.Reader
import FieldMask.Uri.Resolution

/-!
# References

A reference is a URI reference, to be resolved against the base URI of documents of schemas. What it
is resolved to is the document itself or a part of it: the fragment is a JSON pointer into the
document, with characters that a URI does not allow written as percent-encoded octets.
`Reference.resolve` follows a reference, and `Reference.form` is the form in which it is compared
with others. There are no other documents.

This is how the validator, which is not part of the program, is assumed to follow references. Its
reader of pointers, `Reference.pointer?`, is more lenient than RFC 6901: it takes a tilde that
escapes nothing for itself.
-/

namespace FieldMask

/-- Why another document cannot be had. -/
inductive Unavailable
  /-- No document is looked for once the references of a schema are followed. -/
  | tooLate
  | unknownScheme (scheme : String)
  | noFile
  | unreachable (address : String)
  deriving DecidableEq

/-- Why a reference leads nowhere. -/
inductive ReferenceFault
  | invalidUri (text : String) (fault : UriFault)
  /-- The octets that the fragment writes are not a text. -/
  | notUtf8 (pointer : String)
  /-- The pointer does not lead to a value. -/
  | nowhere (pointer : String)
  /-- A segment of the pointer for an item of an array is no index. -/
  | notIndex (segment pointer : String)
  /-- The fragment is a name instead of a pointer. -/
  | noAnchor (name : String)
  /-- The fragment is neither a pointer nor a name. -/
  | invalidAnchor (name : String)
  /-- The reference is to another document. -/
  | elsewhere (document : String) (reason : Unavailable)
  deriving DecidableEq

/-- The wording of the reason. -/
def Unavailable.message : Unavailable → String
  | .tooLate => "Retrieving external resources is not supported once the registry is populated"
  | .unknownScheme scheme => "Unknown scheme " ++ scheme
  | .noFile => "No such file or directory (os error 2)"
  | .unreachable address => "error sending request for url (" ++ address ++ ")"

/-- The wording of the fault. -/
def ReferenceFault.message : ReferenceFault → String
  | .invalidUri text fault => "Invalid URI reference '" ++ text ++ "': " ++ fault.message
  | .notUtf8 pointer =>
    "Invalid percent encoding in pointer '" ++ pointer
      ++ "': the decoded bytes do not represent valid UTF-8"
  | .nowhere pointer => "Pointer '" ++ pointer ++ "' does not exist"
  | .notIndex segment pointer =>
    "Failed to parse array index '" ++ segment ++ "' in pointer '" ++ pointer ++ "'"
  | .noAnchor name => "Anchor '" ++ name ++ "' does not exist"
  | .invalidAnchor name => "Anchor '" ++ name ++ "' is invalid"
  | .elsewhere document reason =>
    "Resource '" ++ document ++ "' is not present in a registry and retrieving it failed: "
      ++ reason.message

namespace Reference

/-- The base URI of the document of a schema. -/
def base : Uri where
  scheme := some "json-schema".toList
  authority := some ⟨none, [], none⟩
  path := ['/']
  query := none
  fragment := none

/-- The URI that a reference means, in normal form. -/
def uri (text : String) : Except ReferenceFault Uri :=
  match Uri.ofText text.toList with
  | .ok reference => .ok (base.resolve reference).normal
  | .error fault => .error (.invalidUri text fault)

/--
The segment that escaped characters write. A tilde that escapes nothing stands for itself, and so
does the character behind it, even if that is another tilde.
-/
def unescape : List Char → List Char
  | '~' :: '0' :: rest => '~' :: unescape rest
  | '~' :: '1' :: rest => '/' :: unescape rest
  | '~' :: c :: rest => '~' :: c :: unescape rest
  | c :: rest => c :: unescape rest
  | [] => []

/--
The place that a text writes; `none` if the text is not empty and does not begin with a slash.
-/
def pointer? (text : String) : Option Pointer :=
  match text.toList with
  | [] => some .root
  | '/' :: rest => some ⟨(splitAt '/' rest).map fun part => String.ofList (unescape part)⟩
  | _ => none

/-- Why the parts of a pointer lead nowhere from a value. -/
def lost (pointer : String) : List (List Char) → Json → ReferenceFault
  | [], _ => .nowhere pointer
  | part :: rest, v =>
    match v.step? (String.ofList (unescape part)) with
    | some w => lost pointer rest w
    | none =>
      if v.type = .array ∧ (indexOfText? (String.ofList part)).isNone then
        .notIndex (String.ofList part) pointer
      else .nowhere pointer

/-- The value that a pointer in a fragment leads to. -/
def follow (document : Json) (fragment : List Char) : Except ReferenceFault Json :=
  match Uri.decode? fragment with
  | none => .error (.notUtf8 (String.ofList fragment))
  | some text =>
    match (pointer? text).bind document.at? with
    | some v => .ok v
    | none => .error (lost (String.ofList fragment) (splitAt '/' (text.toList.drop 1)) document)

/-- The value that a fragment points to. A pointer begins with a slash that is written as itself. -/
def locate (document : Json) (fragment : List Char) : Except ReferenceFault Json :=
  match fragment with
  | [] => .ok document
  | '/' :: _ => follow document fragment
  | name =>
    .error (if name.contains '/' then .invalidAnchor (String.ofList name)
      else .noAnchor (String.ofList name))

/-- The fragment of a reference as it is written, empty if there is none. -/
def fragmentOf (text : String) : List Char := (text.toList.dropWhile (· ≠ '#')).drop 1

/-- The value that a reference points to in a document. -/
def resolve (document : Json) (text : String) : Except ReferenceFault Json := do
  let target ← uri text
  if target.document = base then locate document (fragmentOf text)
  else throw (.elsewhere target.document.text .tooLate)

/-- The form in which a reference is compared with others. -/
def form (text : String) : String :=
  match uri text with
  | .ok target => target.text
  | .error _ => text

end Reference

namespace Json

mutual

/-- All texts that stand under `$ref` somewhere in a value. -/
def referenceTexts : Json → List String
  | .arr items => referenceTextsOfItems items
  | .obj members => referenceTextsOfMembers members
  | _ => []

/-- All texts under `$ref` in items. -/
def referenceTextsOfItems : List Json → List String
  | [] => []
  | x :: xs => x.referenceTexts ++ referenceTextsOfItems xs

/-- All texts under `$ref` in members. -/
def referenceTextsOfMembers : Members → List String
  | [] => []
  | (name, x) :: rest =>
    (if name = "$ref" then x.str?.toList else []) ++ x.referenceTexts
      ++ referenceTextsOfMembers rest

end

end Json

end FieldMask
