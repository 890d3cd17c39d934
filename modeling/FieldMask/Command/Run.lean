import FieldMask.Command.Basic
import FieldMask.Files.Tree
import FieldMask.Lint.Report
import FieldMask.Mask.Selection
import FieldMask.Marshal
import FieldMask.Schema.Validation

/-!
# Running commands

A command is a function of what it sees of files: it answers with what it prints, an exit code, and
the text that it writes to a file, if it does. The exit code is 0 for success, 1 for a payload or
declarations that are not valid, 2 for what cannot be understood and 3 for what cannot be read or
written.
-/

namespace FieldMask

/-- What a command answers with. -/
structure Response where
  stdout : String := ""
  stderr : String := ""
  code : Nat := 0
  /-- A file to write, with its text. -/
  output : Option (String × String) := none

namespace Response

/-- A line that is printed on success. -/
def printed (line : String) : Response := { stdout := line ++ "\n" }

/-- A line of error, with an exit code. -/
def failed (line : String) (code : Nat) : Response := { stderr := line ++ "\n", code }

/-- The response once its file is written, or is not. -/
def afterWriting (response : Response) (result : Except PathFault Unit) : Response :=
  match response.output, result with
  | some (path, _), .error fault => failed ("Error writing to " ++ path ++ ": " ++ fault.message) 3
  | _, _ => response

end Response

namespace Command

open Response

/-- The text of a value, indented if that is wanted. -/
def valueText (pretty : Bool) (value : Json) : String :=
  if pretty then value.pretty else value.compact

/-- A value that is printed or written to a file. -/
def emit (pretty : Bool) (output : Option String) (value : Json) : Response :=
  match output with
  | some path => { output := some (path, valueText pretty value) }
  | none => printed (valueText pretty value)

/-- The response that a failure stands for, or else the one that follows. -/
def orFail {ε α : Type} (x : Except ε α) (failure : ε → Response) (go : α → Response) : Response :=
  match x with
  | .ok a => go a
  | .error e => failure e

/-- A line about an error that is none of files. -/
def plainError (message : String) : Response := failed ("Error: " ++ message) 2

/-- Go on with the registry of a source. -/
def withRegistry (files : FileView) (source : String) (go : Registry → Response) : Response :=
  orFail (Registry.loadFrom files source)
    (fun e => failed ("Error loading declarations: " ++ e.message) e.exitCode) go

/-- Go on with the payload of a source. -/
def withPayload (files : FileView) (source : String) (go : Json → Response) : Response :=
  orFail (Document.load files source)
    (fun e => failed ("Error loading payload: " ++ e.message) e.exitCode) go

/-- Go on with the mask of a text. -/
def withMask (text : Option String) (go : Option Mask → Response) : Response :=
  match text with
  | none => go none
  | some text =>
    orFail (Mask.parse text) (fun e => plainError ("invalid mask: " ++ e.message))
      fun mask => go (some mask)

/-- Print the canonical form of a mask, or its tree. -/
def runParse (text : String) (json : Bool) : Response :=
  orFail (Mask.parse text) (fun e => plainError e.message) fun mask =>
    printed (if json then mask.tree.compact else mask.canonical)

/-- Apply a mask to a payload. -/
def runApply (files : FileView) (payload text : String) (skipMissing : Bool)
    (output : Option String) (pretty : Bool) : Response :=
  withPayload files payload fun value =>
    orFail (Mask.parse text) (fun e => plainError e.message) fun mask =>
      orFail (mask.apply skipMissing value) (fun e => plainError e.message) (emit pretty output)

/-- A compiled document with the parameter that describes the header of masks. -/
def withParameter (header : Option String) : Json → Json
  | .obj members =>
    match header with
    | some header =>
      let options : MaskOptions := { header }
      .obj (Keyed.put "parameters" (.obj [("mask", options.parameter)]) members)
    | none => .obj members
  | other => other

/-- Compile declared models, or one of them. -/
def runCompile (files : FileView) (declarations : String) (model header output : Option String)
    (pretty : Bool) : Response :=
  withRegistry files declarations fun r =>
    let compiled := match model with
      | some name => (r.lookup name).bind (·.schema r)
      | none => r.definitionsDocument
    orFail compiled (fun e => plainError e.message) fun document =>
      emit pretty output (withParameter header document)

/-- Shape a payload to a model. -/
def runMarshal (files : FileView) (declarations payload model : String) (text : Option String)
    (skipNone : Bool) (envelope : Option String) (pretty : Bool) : Response :=
  withRegistry files declarations fun r =>
    withPayload files payload fun value =>
      withMask text fun mask =>
        orFail (FieldMask.marshal r { mask, skipNone, envelope } model value)
          (fun e => plainError e.message) (emit pretty none)

/-- An error that is reported as a value, if that is wanted. -/
def reportError (json : Bool) (message : String) (code : Nat) : Response :=
  if json then
    { printed (Json.obj [("valid", .bool false), ("error", .str message)]).compact with code }
  else failed ("Error: " ++ message) code

/-- The errors of a payload that is not valid. -/
def reportInvalid (json : Bool) (errors : List SchemaError) : Response :=
  if json then
    let list := errors.map fun e => Json.obj [("path", .str e.path), ("message", .str e.message)]
    { printed (Json.obj [("valid", .bool false), ("errors", .arr list)]).compact with code := 1 }
  else failed ("\n".intercalate ("Validation failed:" :: errors.map fun e => "  " ++ e.text)) 1

/-- Validate a payload against a model. -/
def runValidate (files : FileView) (declarations payload model : String) (json : Bool) : Response :=
  withRegistry files declarations fun r =>
    orFail (Document.load files payload)
      (fun e => reportError json ("loading payload: " ++ e.message) e.exitCode) fun value =>
        orFail (r.validate model value)
          (fun
            | .invalid errors => reportInvalid json errors
            | e => reportError json e.message e.exitCode)
          fun _ => printed (if json then (Json.obj [("valid", .bool true)]).compact else "Valid")

/-- Lint declarations. -/
def runLint (files : FileView) (path format : String) (strict quiet : Bool) : Response :=
  match files.find path with
  | .nothing => plainError ("path not found: " ++ path)
  | _ =>
    let report := Lint.lint files path strict
    let text :=
      if format = "json" then report.toJson.pretty else "\n".intercalate (report.lines quiet)
    { printed text with code := if report.failed = 0 then 0 else 1 }

/-- Run a command. -/
def run (files : FileView) : Command → Response
  | .parse mask json => runParse mask json
  | .apply payload mask skipMissing output pretty =>
    runApply files payload mask skipMissing output pretty
  | .compile declarations model header output pretty =>
    runCompile files declarations model header output pretty
  | .marshal declarations payload model mask skipNone envelope pretty =>
    runMarshal files declarations payload model mask skipNone envelope pretty
  | .validate declarations payload model json => runValidate files declarations payload model json
  | .lint path format strict quiet => runLint files path format strict quiet

/-- The paths of the files that a command looks at, and of the directories that it looks into. -/
def sources : Command → List String
  | .parse _ _ => []
  | .apply payload _ _ _ _ => [payload]
  | .compile declarations _ _ _ _ => [declarations]
  | .marshal declarations payload _ _ _ _ _ => [declarations, payload]
  | .validate declarations payload _ _ => [declarations, payload]
  | .lint path _ _ _ => [path]

end Command

namespace Invocation

/-- The name and version of the program. -/
def versionLine : String := "mask-schema 0.4.0"

/-- Respond to an invocation. Without arguments there is help, and yet that is an error. -/
def respond (parser : ArgumentParser) (files : FileView) : Invocation → Response
  | .run command => command.run files
  | .version => .printed versionLine
  | .help name => { stdout := parser.help name }
  | .idle => { stderr := parser.help none, code := 2 }
  | .misused => { stderr := parser.complaint, code := 2 }

end Invocation

namespace FileEntry

/-- Respond to arguments in a tree of files; also the tree afterwards. -/
def runIn (root : FileEntry) (args : List String) : Response × FileEntry :=
  let parser := ArgumentParser.installed
  let response := (Invocation.ofArguments parser args).respond parser root.view
  match response.output with
  | none => (response, root)
  | some (path, text) =>
    match root.write path text.toUTF8 with
    | .ok root => (response, root)
    | .error fault => (response.afterWriting (.error fault), root)

end FileEntry

end FieldMask
