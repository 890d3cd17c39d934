import FieldMask.Text.Split
import FieldMask.Uri.Ipv6
import FieldMask.Uri.Octet

/-!
# Reading URI references

`Uri.ofText` reads a URI reference part by part. Each part takes as many characters as it admits, so
a character that nothing admits is at fault where the part before it ends. So the library reports
it that the validator reads references with.
-/

namespace FieldMask

namespace Uri

/-- Whether a character can stand in a scheme. -/
def isSchemeChar (c : Char) : Bool := c.isAlphanum || "+-.".toList.contains c

/-- A part that an introducing character announces, if it stands there, and what remains. -/
def takeMarked (mark : Char) (offset : Nat) (text : List Char) :
    Except UriFault (Option (List Char) × List Char) :=
  match text with
  | c :: rest =>
    if c = mark then do
      let (part, remaining) ← takePart isTailChar (offset + 1) rest
      return (some part, remaining)
    else .ok (none, text)
  | [] => .ok (none, text)

/-- The length of a part with the character that introduces it. -/
def markedLength (part : Option (List Char)) : Nat :=
  match part with
  | some part => part.length + 1
  | none => 0

/-- Read the query and the fragment. -/
def readTail (scheme : Option (List Char)) (authority : Option Authority) (path : List Char)
    (offset : Nat) (text : List Char) : Except UriFault Uri := do
  let (query, rest) ← takeMarked '?' offset text
  let afterQuery := offset + markedLength query
  let (fragment, rest) ← takeMarked '#' afterQuery rest
  if rest.isEmpty then return ⟨scheme, authority, path, query, fragment⟩
  else throw (.unexpectedCharacter (afterQuery + markedLength fragment))

/-- Read the path behind a scheme without an authority, and what follows. -/
def readPath (scheme : Option (List Char)) (offset : Nat) (text : List Char) :
    Except UriFault Uri := do
  let (path, rest) ← takePart isPathChar offset text
  readTail scheme none path (offset + path.length) rest

/-- Read the path behind an authority, which is empty or begins with a slash, and what follows. -/
def readRootedPath (scheme : Option (List Char)) (authority : Authority) (offset : Nat)
    (text : List Char) : Except UriFault Uri := do
  let (path, rest) ← takePart isPathChar offset text
  if path.isEmpty ∨ path.head? = some '/' then
    readTail scheme (some authority) path (offset + path.length) rest
  else throw (.unexpectedCharacter offset)

/-- Pass an address of a later version behind its bracket: what remains. -/
def passFutureAddress (offset : Nat) (text : List Char) : Except UriFault (List Char) :=
  match text with
  | v :: rest =>
    if v = 'v' ∨ v = 'V' then
      let version := rest.takeWhile fun c => (hexValue? c).isSome
      match rest.drop version.length with
      | '.' :: name =>
        if version.isEmpty then .error (.unexpectedCharacter (offset + 1))
        else if name.head?.any isUserChar then .ok (name.dropWhile isUserChar)
        else .error (.unexpectedCharacter (offset + version.length + 2))
      | _ => .error (.unexpectedCharacter (offset + version.length + 1))
    else .error (.unexpectedCharacter offset)
  | [] => .error (.unexpectedCharacter offset)

/-- Whether a text begins like an IPv6 address. -/
def beginsAddress (text : List Char) : Bool :=
  text.head? = some ':' || match Ipv6.readPiece text with
    | some (.group .., _) => true
    | _ => false

/-- Pass an address behind its bracket: what remains. -/
def passAddress (offset : Nat) (text : List Char) : Except UriFault (List Char) :=
  if beginsAddress text then
    match Ipv6.read? text with
    | some (_, rest) => .ok rest
    | none => .error (.invalidAddress offset)
  else passFutureAddress offset text

/-- An address in brackets, of which the first has been read, and what remains. -/
def readAddress (offset : Nat) (text : List Char) : Except UriFault (List Char × List Char) := do
  let rest ← passAddress offset text
  let length := text.length - rest.length
  match rest with
  | ']' :: rest => return ('[' :: text.take (length + 1), rest)
  | _ => throw (.unexpectedCharacter (offset + length))

/-- The service behind a host, if there is one, and what remains. -/
def takeService (text : List Char) : Option (List Char) × List Char :=
  match text with
  | ':' :: rest => (some (rest.takeWhile Char.isDigit), rest.dropWhile Char.isDigit)
  | _ => (none, text)

/-- Read a host and its service, and what follows the authority. -/
def readHost (scheme user : Option (List Char)) (offset : Nat) (text : List Char) :
    Except UriFault Uri := do
  let (host, rest) ← match text with
    | '[' :: rest => readAddress (offset + 1) rest
    | _ => takePart isHostChar offset text
  let (service, rest) := takeService rest
  readRootedPath scheme ⟨user, host, service⟩ (offset + (text.length - rest.length)) rest

/-- The host and the service of a name: a service is a number behind the only colon. -/
def splitService (offset : Nat) (name : List Char) :
    Except UriFault (List Char × Option (List Char)) :=
  let parts := splitAt ':' name
  let last := parts.getLastD []
  match parts with
  | [] | [_] => .ok (name, none)
  | [host, service] =>
    match service.dropWhile Char.isDigit with
    | [] => .ok (host, some service)
    | wrong => .error (.unexpectedCharacter (offset + name.length - wrong.length))
  | _ => .error (.unexpectedCharacter (offset + name.length - last.length - 1))

/-- Read an authority and what follows it. -/
def readAuthority (scheme : Option (List Char)) (offset : Nat) (text : List Char) :
    Except UriFault Uri := do
  let (name, rest) ← takePart isUserChar offset text
  match rest with
  | '@' :: rest => readHost scheme (some name) (offset + name.length + 1) rest
  | '[' :: _ =>
    if name.isEmpty then readHost scheme none offset text
    else throw (.unexpectedCharacter (offset + name.length))
  | _ =>
    let (host, service) ← splitService offset name
    readRootedPath scheme ⟨none, host, service⟩ (offset + name.length) rest

/-- Read a reference without scheme and authority. -/
def readRelative (text : List Char) : Except UriFault Uri := do
  let (segment, rest) ← takePart isSegmentChar 0 text
  match rest with
  | ':' :: _ => throw (.unexpectedCharacter segment.length)
  | _ =>
    let (path, rest) ← takePart isPathChar segment.length rest
    readTail none none (segment ++ path) (segment.length + path.length) rest

/-- Read a URI reference. -/
def ofText (text : List Char) : Except UriFault Uri :=
  let scheme := text.takeWhile isSchemeChar
  match text.drop scheme.length with
  | ':' :: rest =>
    if !scheme.head?.any Char.isAlpha then .error (.unexpectedCharacter 0)
    else match rest with
      | '/' :: '/' :: rest => readAuthority (some scheme) (scheme.length + 3) rest
      | rest => readPath (some scheme) (scheme.length + 1) rest
  | _ =>
    match text with
    | '/' :: '/' :: rest => readAuthority none 2 rest
    | text => readRelative text

end Uri

end FieldMask
