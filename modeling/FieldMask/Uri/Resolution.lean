import FieldMask.Text.Split
import FieldMask.Uri.Ipv6
import FieldMask.Uri.Octet

/-!
# Resolving URI references

`Uri.resolve` is the URI that a reference means where a base is the URI of the document that it
stands in, and `Uri.normal` writes a URI in the form in which it is compared with others.
-/

namespace FieldMask

namespace Uri

/-- Whether a path begins with a slash. -/
def isRooted (path : List Char) : Bool := path.head? = some '/'

/-- A relative path behind the path of a base up to its last slash. -/
def mergePaths (base : Uri) (path : List Char) : List Char :=
  if base.authority.isSome && base.path.isEmpty then '/' :: path
  else (base.path.reverse.dropWhile (· ≠ '/')).reverse ++ path

/-- The segments that are left after one more: a dot adds nothing, and two take the last away. -/
def stepInto (kept : List (List Char)) (segment : List Char) : List (List Char) :=
  if segment = ['.'] then kept
  else if segment = ['.', '.'] then kept.dropLast
  else kept ++ [segment]

/-- A path from the root without segments of dots. One that ends in such a segment is a folder. -/
def withoutDots (path : List Char) : List Char :=
  let segments := splitAt '/' (path.drop 1)
  let kept := segments.foldl stepInto []
  let last := segments.getLastD []
  let folder := last = ['.'] || last = ['.', '.']
  '/' :: ['/'].intercalate (if folder then kept ++ [[]] else kept)

/-- A path without segments of dots, if it begins at the root. -/
def plainPath (path : List Char) : List Char := if isRooted path then withoutDots path else path

/-- The URI that a reference means in a document with a base URI. -/
def resolve (base reference : Uri) : Uri :=
  if reference.scheme.isSome then { reference with path := plainPath reference.path }
  else if reference.authority.isSome then
    { reference with scheme := base.scheme, path := plainPath reference.path }
  else
    let located := { reference with scheme := base.scheme, authority := base.authority }
    if reference.path.isEmpty then
      { located with path := base.path, query := reference.query.or base.query }
    else if isRooted reference.path then { located with path := plainPath reference.path }
    else { located with path := plainPath (mergePaths base reference.path) }

/-- The normal form of a host: addresses have one text, and the letters of names are small. -/
def normalHost (host : List Char) : List Char :=
  match host with
  | '[' :: address =>
    match Ipv6.read? address with
    | some (groups, _) => '[' :: Ipv6.text groups ++ [']']
    | none => host.map Char.toLower
  | name => normalName name

/-- The normal form of an authority: an empty service is left out. -/
def normalAuthority (a : Authority) : Authority :=
  { user := a.user.map normalPart
    host := normalHost a.host
    service := a.service.filter (!·.isEmpty) }

/--
The normal form of a URI. Octets of a path can write segments of dots, so these are looked for here
too. A path that begins with two slashes needs a segment before them where no authority stands.
-/
def normal (u : Uri) : Uri :=
  let plain := if u.scheme.isSome then plainPath (normalPart u.path) else normalPart u.path
  { scheme := u.scheme.map fun s => s.map Char.toLower
    authority := u.authority.map normalAuthority
    path := if u.authority.isNone && plain.take 2 = ['/', '/'] then '/' :: '.' :: plain else plain
    query := u.query.map normalPart
    fragment := u.fragment.map normalPart }

end Uri

end FieldMask
