import FieldMask.Declaration.Model
import FieldMask.Files.View
import FieldMask.Json.Reader

/-!
# Loading documents

A document is JSON text that is read from a file. A source that looks like a URL is never a file: it
is fetched from the network, and not found if there is none.
-/

namespace FieldMask

/-- Why the content of a source cannot be read. -/
inductive ReadFault
  | isDirectory
  | notUtf8
  /-- The network does not answer a URL by a document. -/
  | notFetched (reason : String)
  deriving DecidableEq

/-- The wording of the fault of a source. -/
def ReadFault.message (source : String) : ReadFault → String
  | .isDirectory => "cannot read " ++ source ++ ": Is a directory (os error 21)"
  | .notUtf8 => "cannot read " ++ source ++ ": stream did not contain valid UTF-8"
  | .notFetched reason => "failed to fetch " ++ source ++ ": " ++ reason

/-- Why a document, or the registry that it declares, cannot be loaded. -/
inductive LoadError
  | fileNotFound (path : String)
  | unreadable (source : String) (fault : ReadFault)
  | invalidJson (error : SyntaxError)
  | declaration (error : DeclarationError)
  | model (error : ModelError)
  deriving DecidableEq

namespace LoadError

/-- The wording of the error. -/
def message : LoadError → String
  | .fileNotFound path => "file not found: " ++ path
  | .unreadable source fault => fault.message source
  | .invalidJson e => "invalid JSON: " ++ e.message
  | .declaration (.invalid path fault) => "invalid declaration at " ++ path ++ ": " ++ fault.message
  | .declaration (.invalidMask path e) => "invalid mask at " ++ path ++ ": " ++ e.message
  | .model e => e.message

/-- The exit code of a program that ends with the error. -/
def exitCode : LoadError → Nat
  | .fileNotFound _ | .unreadable _ _ => 3
  | _ => 2

/-- An error of a registry as one of loading. -/
def ofRegistryError : RegistryError → LoadError
  | .declaration e => .declaration e
  | .model e => .model e

end LoadError

/-- Whether a source looks like a URL. -/
def isUrl (source : String) : Bool := source.startsWith "http://" || source.startsWith "https://"

namespace Document

/-- The document that a text writes. -/
def ofText (text : String) : Except LoadError Json := (Json.read text).mapError .invalidJson

/-- The document in the file at a path. -/
def ofFile (files : FileView) (path : String) : Except LoadError Json :=
  match files.find path with
  | .nothing => .error (.fileNotFound path)
  | .directory => .error (.unreadable path .isDirectory)
  | .file content =>
    match String.fromUTF8? content with
    | some text => ofText text
    | none => .error (.unreadable path .notUtf8)

/-- The document that the network answers a URL by. -/
def ofUrl (files : FileView) (url : String) : Except LoadError Json :=
  match files.network with
  | none => .error (.fileNotFound url)
  | some fetch => (fetch url).mapError fun reason => .unreadable url (.notFetched reason)

/-- The document at a source. -/
def load (files : FileView) (source : String) : Except LoadError Json :=
  if isUrl source then ofUrl files source else ofFile files source

end Document

namespace Registry

/-- The registry of the models that a document declares. -/
def load (document : Json) : Except LoadError Registry :=
  (ofDocument document).mapError .ofRegistryError

/-- The registry of the models that the document at a source declares. -/
def loadFrom (files : FileView) (source : String) : Except LoadError Registry := do
  load (← Document.load files source)

end Registry

end FieldMask
