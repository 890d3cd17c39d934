import FieldMask.Text.Digits
import FieldMask.Uri

/-!
# Characters of URI references

Which characters the parts of a URI reference can have, and the octets that are percent-encoded in
them. `Uri.takePart` takes a part off the front of a text, `Uri.decode?` reads the text that a part
writes, and `Uri.normalPart` writes a part in its normal form.
-/

namespace FieldMask

namespace Uri

/-- Whether a character is never percent-encoded in the normal form. -/
def isUnreserved (c : Char) : Bool := c.isAlphanum || "-._~".toList.contains c

/-- Whether a character can stand in the name of a host by itself. -/
def isHostChar (c : Char) : Bool := isUnreserved c || "!$&'()*+,;=".toList.contains c

/-- Whether a character can stand in the part of an authority before the path by itself. -/
def isUserChar (c : Char) : Bool := isHostChar c || c == ':'

/-- Whether a character can stand by itself in the first segment of a path without a scheme. -/
def isSegmentChar (c : Char) : Bool := isHostChar c || c == '@'

/-- Whether a character can stand in a path by itself. -/
def isPathChar (c : Char) : Bool := isSegmentChar c || c == ':' || c == '/'

/-- Whether a character can stand in a query or a fragment by itself. -/
def isTailChar (c : Char) : Bool := isPathChar c || c == '?'

/-- The octet that two hexadecimal digits write. -/
def octet? (a b : Char) : Option UInt8 := do return .ofNat ((← hexValue? a) * 16 + (← hexValue? b))

/--
The longest part of admitted characters and percent-encoded octets at the front of a text, and what
remains. The first byte of the text has the given offset.
-/
def takePart (admits : Char → Bool) (offset : Nat) :
    List Char → Except UriFault (List Char × List Char)
  | '%' :: a :: b :: rest =>
    if (octet? a b).isSome then do
      let (part, remaining) ← takePart admits (offset + 3) rest
      return ('%' :: a :: b :: part, remaining)
    else .error (.invalidOctet offset)
  | '%' :: _ => .error (.invalidOctet offset)
  | c :: rest =>
    if admits c then do
      let (part, remaining) ← takePart admits (offset + 1) rest
      return (c :: part, remaining)
    else .ok ([], c :: rest)
  | [] => .ok ([], [])

/-- The octets that a part writes. -/
def octets : List Char → List UInt8
  | '%' :: a :: b :: rest => (octet? a b).toList ++ octets rest
  | c :: rest => .ofNat c.toNat :: octets rest
  | [] => []

/-- The text that a part writes: itself, unless it has percent-encoded octets. -/
def decode? (part : List Char) : Option String :=
  if part.contains '%' then String.fromUTF8? ⟨(octets part).toArray⟩
  else some (String.ofList part)

/--
The normal form of a part: of the octets that are percent-encoded, those of unreserved characters
are written as themselves and the others with capital digits.
-/
def normalPart : List Char → List Char
  | '%' :: a :: b :: rest =>
    match (octet? a b).map (fun n => Char.ofNat n.toNat) with
    | some c =>
      (if isUnreserved c then [c] else ['%', a.toUpper, b.toUpper]) ++ normalPart rest
    | none => '%' :: a :: b :: normalPart rest
  | c :: rest => c :: normalPart rest
  | [] => []

/-- The normal form of a host name: letters are small, except in percent-encoded octets. -/
def normalName : List Char → List Char
  | '%' :: a :: b :: rest =>
    match (octet? a b).map (fun n => Char.ofNat n.toNat) with
    | some c =>
      (if isUnreserved c then [c.toLower] else ['%', a.toUpper, b.toUpper]) ++ normalName rest
    | none => '%' :: a :: b :: normalName rest
  | c :: rest => c.toLower :: normalName rest
  | [] => []

end Uri

end FieldMask
