/-!
# URI references

A URI reference in its five parts, after RFC 3986. A part that is absent differs from one that is
empty. All parts are held as they are written, percent-encoded octets included.

The validator leaves URIs to a library of its own. The modules for reading, resolving and
normalizing them say what is assumed of it: RFC 3986, and the faults that the library reports.
-/

namespace FieldMask

/-- Why a text is not a URI reference, with the offset of the byte at fault. -/
inductive UriFault
  | unexpectedCharacter (offset : Nat)
  /-- A percent sign without two hexadecimal digits. -/
  | invalidOctet (offset : Nat)
  | invalidAddress (offset : Nat)
  deriving DecidableEq

/-- The wording of the fault. -/
def UriFault.message : UriFault → String
  | .unexpectedCharacter offset => "unexpected character at index " ++ toString offset
  | .invalidOctet offset => "invalid percent-encoded octet at index " ++ toString offset
  | .invalidAddress offset => "invalid IPv6 address at index " ++ toString offset

/-- Who is responsible for what a URI names. -/
structure Authority where
  user : Option (List Char)
  host : List Char
  /-- The digits behind the colon after the host. -/
  service : Option (List Char)
  deriving DecidableEq

/-- A URI reference. -/
structure Uri where
  scheme : Option (List Char)
  authority : Option Authority
  path : List Char
  query : Option (List Char)
  fragment : Option (List Char)
  deriving DecidableEq

/-- The text of an authority. -/
def Authority.text (a : Authority) : List Char :=
  (match a.user with
    | some user => user ++ ['@']
    | none => [])
    ++ a.host
    ++ match a.service with
      | some service => ':' :: service
      | none => []

namespace Uri

/-- The text of a URI reference. -/
def text (u : Uri) : String :=
  String.ofList <|
    (match u.scheme with
      | some scheme => scheme ++ [':']
      | none => [])
      ++ (match u.authority with
        | some authority => '/' :: '/' :: authority.text
        | none => [])
      ++ u.path
      ++ (match u.query with
        | some query => '?' :: query
        | none => [])
      ++ match u.fragment with
        | some fragment => '#' :: fragment
        | none => []

/-- The URI without its fragment. -/
def document (u : Uri) : Uri := { u with fragment := none }

end Uri

end FieldMask
