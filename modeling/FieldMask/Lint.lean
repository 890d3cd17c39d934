import FieldMask.Document
import FieldMask.Files.Path

/-!
# Linting declarations

A file of declarations is checked as a whole: where loading stops at the first problem, linting goes
on and lists all of them, each with the path of the declaration or field that it is in. Some
findings are warnings about declarations that do load. Files are linted one by one, or all `.json`
files below a directory in the order of their paths.
-/

namespace FieldMask

/-- How bad a finding is. -/
inductive Severity
  | error
  | warning
  deriving DecidableEq

/-- The name of a severity. -/
def Severity.name : Severity → String
  | .error => "error"
  | .warning => "warning"

/-- What linting finds. -/
inductive Finding
  /-- The file does not hold a document. -/
  | noDocument (error : LoadError)
  /-- The document does not hold an array of declarations. -/
  | noDeclarations (error : DeclarationError)
  | invalidDeclaration (fault : DeclarationFault)
  | invalidMask (error : MaskParseError)
  | model (error : ModelError)
  | noFields (name : String)
  | noDescription (name : String)

namespace Finding

/-- How bad the finding is. -/
def severity : Finding → Severity
  | .noFields _ | .noDescription _ => .warning
  | _ => .error

/-- The code of the finding. -/
def code : Finding → String
  | .noDocument _ | .noDeclarations _ | .invalidDeclaration _ => "E001"
  | .invalidMask _ => "E003"
  | .model (.unknownModel _) => "E002"
  | .model (.duplicateDiscriminator _ _) | .model (.ambiguousAncestor _) => "E004"
  | .model (.duplicateModel _) | .model (.inheritanceCycle _) => "E001"
  | .noFields _ => "W001"
  | .noDescription _ => "W002"

/-- The wording of the finding. -/
def message : Finding → String
  | .noDocument e => "syntax error: " ++ e.message
  | .noDeclarations e => (LoadError.declaration e).message
  | .invalidDeclaration fault => fault.message
  | .invalidMask e => "invalid mask: " ++ e.message
  | .model e => e.message
  | .noFields name => "model '" ++ name ++ "' has no fields"
  | .noDescription name => "model '" ++ name ++ "' has no description"

end Finding

/-- A finding at a path of a file. -/
structure Diagnostic where
  file : String
  path : String
  finding : Finding

namespace Lint

/-- A finding with its path. -/
abbrev Located := String × Finding

/-- The finding that an error of a declaration is. -/
def ofDeclarationError : DeclarationError → Located
  | .invalid path fault => (path, .invalidDeclaration fault)
  | .invalidMask path e => (path, .invalidMask e)

/-- The warnings about a declaration. -/
def warnings (path : String) (d : Declaration) : List Located :=
  (if d.fields.isEmpty && d.parents.isEmpty && d.sources.isEmpty then [(path, .noFields d.name)]
    else [])
    ++ (if d.description.isNone then [(path, .noDescription d.name)] else [])

/-- The models that could be registered, with the paths of their declarations. -/
structure Registered where
  registry : Registry
  /-- The path of the declaration of every registered model. -/
  paths : List (String × String)

/-- Check one declaration and register its model if that is possible. -/
def checkDeclaration (st : Registered) (path : String) (value : Json) : Registered × List Located :=
  match Declaration.read path value with
  | .error e => (st, [ofDeclarationError e])
  | .ok d =>
    match d.register st.registry with
    | .ok registry => (⟨registry, (d.name, path) :: st.paths⟩, warnings path d)
    | .error e => (st, warnings path d ++ [(path, .model e)])

/-- Check declarations one after the other. -/
def checkDeclarations (st : Registered) : List (String × Json) → Registered × List Located
  | [] => (st, [])
  | (path, value) :: rest =>
    let (st, found) := checkDeclaration st path value
    let (st, more) := checkDeclarations st rest
    (st, found ++ more)

/-- The finding that an error of models is, if there is one. -/
def ofModelError {α : Type} (path : String) : Except ModelError α → List Located
  | .ok _ => []
  | .error e => [(path, .model e)]

/-- Check what a field refers to. -/
def checkField (r : Registry) (path : String) (field : Field) : List Located :=
  match field with
  | { shape := .scalar _, .. } => []
  | { shape := .list items _ _ _, .. } => checkField r (path ++ "/items") items
  | { shape := .nested target _, .. } => ofModelError path (r.lookup target.name)
  | { shape := .polymorph mapping, .. } =>
    match mapping.values.filter (!r.contains ·) with
    | [] => ofModelError path (r.commonAncestor mapping.values)
    | missing => missing.map fun name => (path, .model (.unknownModel name))
termination_by structural field

/-- Check a registered model and its own fields. -/
def checkModel (st : Registered) (model : Model) : List Located :=
  let path := (st.paths.lookup model.name).getD "/"
  ofModelError path (st.registry.resolve model)
    ++ model.fields.flatMap fun (name, field) =>
      checkField st.registry (path ++ "/fields/" ++ name) field

/-- Check a document. -/
def checkDocument (document : Json) : List Located :=
  match Declaration.valuesOf document with
  | .error e => [("/models", .noDeclarations e)]
  | .ok values =>
    let (st, found) := checkDeclarations ⟨.empty, []⟩ values
    found ++ st.registry.toList.flatMap (checkModel st)

/-- Check the file at a path. -/
def checkFile (files : FileView) (path : String) : List Located :=
  match Document.ofFile files path with
  | .error e => [("/", .noDocument e)]
  | .ok document => checkDocument document

end Lint

/-- How a linted file fares. -/
inductive FileStatus
  | ok
  | error
  | warning
  deriving DecidableEq

/-- The name of a status. -/
def FileStatus.name : FileStatus → String
  | .ok => "ok"
  | .error => "error"
  | .warning => "warning"

/-- What was found in a file. -/
structure FileReport where
  /-- The path of the file, as seen from the linted directory. -/
  file : String
  diagnostics : List Diagnostic

namespace FileReport

/-- How many findings have a severity. -/
def count (report : FileReport) (severity : Severity) : Nat :=
  report.diagnostics.countP (·.finding.severity == severity)

/-- How the file fares. -/
def status (report : FileReport) : FileStatus :=
  if 0 < report.count .error then .error
  else if report.diagnostics.isEmpty then .ok
  else .warning

/-- Whether the file fails; with strictness, warnings are enough. -/
def fails (report : FileReport) (strict : Bool) : Bool :=
  match report.status with
  | .ok => false
  | .warning => strict
  | .error => true

end FileReport

/-- What was found in the files at a path. -/
structure LintReport where
  path : String
  /-- Whether files with warnings fail. -/
  strict : Bool
  results : List FileReport

namespace LintReport

/-- How many files were checked. -/
def checked (report : LintReport) : Nat := report.results.length

/-- How many files fail. -/
def failed (report : LintReport) : Nat := report.results.countP (·.fails report.strict)

/-- How many files pass. -/
def passed (report : LintReport) : Nat := report.checked - report.failed

/-- How many findings have a severity. -/
def count (report : LintReport) (severity : Severity) : Nat :=
  report.results.foldr (·.count severity + ·) 0

/-- Whether there are no errors. -/
def isOk (report : LintReport) : Bool := report.count .error == 0

end LintReport

namespace Lint

/-- Lint the file at a path, which is shown as seen from the directory at another. -/
def lintFile (files : FileView) (base path : String) : FileReport :=
  let found := checkFile files path
  ⟨Path.relativeTo base path, found.map fun (place, finding) => ⟨path, place, finding⟩⟩

/--
The files of declarations at a path: the one there, or all below it in the order of their paths.
-/
def declarationFiles (files : FileView) (path : String) : List String :=
  match files.find path with
  | .file _ => if Path.isJsonFile path then [path] else []
  | _ => ((files.below path).filter Path.isJsonFile).mergeSort Path.le

/-- Lint the files of declarations at a path. -/
def lint (files : FileView) (path : String) (strict : Bool) : LintReport :=
  ⟨path, strict, (declarationFiles files path).map (lintFile files path)⟩

end Lint

end FieldMask
