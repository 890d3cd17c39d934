import FieldMask.Json.Printer
import FieldMask.Lint

/-!
# Reports of linting

A report is written as a JSON value, or as lines of text with colours for terminals.
-/

namespace FieldMask

/-- A count as a value. -/
def countJson (n : Nat) : Json := .ofWord (.ofNat n)

/-- A diagnostic as a value. -/
def Diagnostic.toJson (d : Diagnostic) : Json :=
  .obj [("severity", .str d.finding.severity.name), ("code", .str d.finding.code),
    ("file", .str d.file), ("path", .str d.path), ("message", .str d.finding.message)]

/-- The report on a file as a value; without diagnostics, they are left out. -/
def FileReport.toJson (report : FileReport) : Json :=
  .obj ([("file", .str report.file), ("status", .str report.status.name)]
    ++ if report.diagnostics.isEmpty then []
      else [("diagnostics", .arr (report.diagnostics.map Diagnostic.toJson))])

/-- A report as a value. -/
def LintReport.toJson (report : LintReport) : Json :=
  .obj [("path", .str report.path), ("files_checked", countJson report.checked),
    ("passed", countJson report.passed), ("failed", countJson report.failed),
    ("errors", countJson (report.count .error)), ("warnings", countJson (report.count .warning)),
    ("results", .arr (report.results.map FileReport.toJson))]

/-- A colour of a terminal. -/
inductive Colour
  | red | green | yellow
  deriving DecidableEq

/-- What switches a terminal to a colour. -/
def Colour.start : Colour → String
  | .red => "\x1b[31m"
  | .green => "\x1b[32m"
  | .yellow => "\x1b[33m"

/-- A text in a colour. -/
def Colour.paint (colour : Colour) (text : String) : String := colour.start ++ text ++ "\x1b[0m"

/-- The colour of a severity. -/
def Severity.colour : Severity → Colour
  | .error => .red
  | .warning => .yellow

/-- The mark of a status. -/
def FileStatus.mark : FileStatus → String
  | .ok => Colour.green.paint "✓"
  | .warning => Colour.yellow.paint "⚠"
  | .error => Colour.red.paint "✗"

/-- The line of a diagnostic. -/
def Diagnostic.line (d : Diagnostic) : String :=
  let severity := d.finding.severity
  "    " ++ severity.colour.paint (severity.name ++ "[" ++ d.finding.code ++ "]") ++ ": " ++ d.path
    ++ " - " ++ d.finding.message

/-- The lines of the report on a file. If quiet, only what is wrong is shown. -/
def FileReport.lines (report : FileReport) (quiet : Bool) : List String :=
  let shown := report.diagnostics.filter fun d => !quiet || d.finding.severity == .error
  (if quiet && report.status == .ok then [] else ["  " ++ report.status.mark ++ " " ++ report.file])
    ++ shown.map Diagnostic.line

/-- The last line of a report. -/
def LintReport.summary (report : LintReport) : String :=
  let files := toString report.checked ++ " files checked"
  if report.failed = 0 then Colour.green.paint ("✓ " ++ files ++ ", all passed")
  else Colour.red.paint ("✗ " ++ files ++ ": " ++ toString report.passed ++ " passed, "
    ++ toString report.failed ++ " failed (" ++ toString (report.count .error) ++ " errors, "
    ++ toString (report.count .warning) ++ " warnings)")

/-- The lines of a report. -/
def LintReport.lines (report : LintReport) (quiet : Bool) : List String :=
  (if quiet then [] else ["Linting " ++ report.path ++ " ...", ""])
    ++ report.results.flatMap (·.lines quiet) ++ ["", report.summary]

end FieldMask
