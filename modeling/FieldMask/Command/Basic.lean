import FieldMask.Command.Arguments
import FieldMask.Mask.Header

/-!
# Commands

The program has six commands. Each is named by the first argument, after options that any command
may have, and has options and operands of its own. There is help on the program and on each of the
commands, by an option or by a command of its own.
-/

namespace FieldMask

/-- What the program is asked to do. -/
inductive Command
  /-- Print the canonical form of a mask, or its tree. -/
  | parse (mask : String) (json : Bool)
  /-- Apply a mask to a payload. -/
  | apply (payload mask : String) (skipMissing : Bool) (output : Option String) (pretty : Bool)
  /-- Compile declared models, or one of them; with a header, include the parameter that describes
  it. -/
  | compile (declarations : String) (model maskHeader output : Option String) (pretty : Bool)
  /-- Shape a payload to a model. -/
  | marshal (declarations payload model : String) (mask : Option String) (skipNone : Bool)
    (envelope : Option String) (pretty : Bool)
  /-- Validate a payload against a model. -/
  | validate (declarations payload model : String) (json : Bool)
  /-- Lint declarations. -/
  | lint (path : String) (format : String) (strict quiet : Bool)

/-- How the arguments of the program are understood. -/
inductive Invocation
  | run (command : Command)
  | version
  /-- Help on the program or on a command of it. -/
  | help (name : Option String)
  /-- There are no arguments. -/
  | idle
  /-- The arguments are not those of a command. -/
  | misused

namespace Command

/-- The names of the commands. -/
def names : List String := ["parse", "apply", "compile", "marshal", "validate", "lint"]

/-- An option without a value. -/
def flag (long : String) (short : Option Char) : OptionSpec := { long, short }

/-- An option with a value. -/
def valued (long : String) (short : Option Char) (kind : ValueKind) : OptionSpec :=
  { long, short, value := some kind }

/-- The options that every command has. -/
def common : List OptionSpec :=
  [{ long := "verbose", short := some 'v', counted := true },
    { long := "help", short := some 'h', asksHelp := true }]

/-- What parsing takes. -/
def parseSpec : CommandSpec := ⟨common ++ [flag "json" none], [.text]⟩

/-- What applying takes. -/
def applySpec : CommandSpec :=
  ⟨common ++ [valued "mask" (some 'm') .text, flag "skip-missing" none, valued "output" none .path,
    flag "pretty" none], [.text]⟩

/-- What compiling takes. -/
def compileSpec : CommandSpec :=
  ⟨common ++ [valued "model" none .text, flag "mask-param" none, valued "header" none .text,
    valued "output" none .path, flag "pretty" none], [.text]⟩

/-- What marshalling takes. -/
def marshalSpec : CommandSpec :=
  ⟨common ++ [valued "model" none .text, valued "mask" (some 'm') .text, flag "skip-none" none,
    valued "envelope" none .text, flag "pretty" none], [.text, .text]⟩

/-- What validation takes. -/
def validateSpec : CommandSpec :=
  ⟨common ++ [valued "model" none .text, flag "json" none], [.text, .text]⟩

/-- What linting takes. -/
def lintSpec : CommandSpec :=
  ⟨common ++ [valued "format" none .text, flag "strict" none, flag "quiet" (some 'q')], [.path]⟩

/-- The value of an option that a command cannot do without. -/
def required (a : Arguments) (long : String) : Except Stop String :=
  match a.value? long with
  | some value => .ok value
  | none => .error .misuse

/-- The command of a name with its arguments. -/
def ofName (parser : ArgumentParser) (name : String) (args : List String) : Except Stop Command :=
  match name with
  | "parse" => do
    let a ← parser.sort parseSpec args
    let [mask] := a.operands | throw .misuse
    return .parse mask (a.has "json")
  | "apply" => do
    let a ← parser.sort applySpec args
    let [payload] := a.operands | throw .misuse
    return .apply payload (← required a "mask") (a.has "skip-missing") (a.value? "output")
      (a.has "pretty")
  | "compile" => do
    let a ← parser.sort compileSpec args
    let [declarations] := a.operands | throw .misuse
    let header := (a.value? "header").getD ({} : MaskOptions).header
    return .compile declarations (a.value? "model")
      (if a.has "mask-param" then some header else none) (a.value? "output") (a.has "pretty")
  | "marshal" => do
    let a ← parser.sort marshalSpec args
    let [declarations, payload] := a.operands | throw .misuse
    return .marshal declarations payload (← required a "model") (a.value? "mask")
      (a.has "skip-none") (a.value? "envelope") (a.has "pretty")
  | "validate" => do
    let a ← parser.sort validateSpec args
    let [declarations, payload] := a.operands | throw .misuse
    return .validate declarations payload (← required a "model") (a.has "json")
  | "lint" => do
    let a ← parser.sort lintSpec args
    let [path] := a.operands | throw .misuse
    return .lint path ((a.value? "format").getD "text") (a.has "strict") (a.has "quiet")
  | _ => .error .misuse

end Command

namespace Invocation

/-- What short options before the command ask for, if that is another thing than more output. -/
def ofLetters : List Char → Option Invocation
  | [] => none
  | c :: rest =>
    if c = 'v' then ofLetters rest
    else if c = 'V' then some .version
    else if c = 'h' then some (.help none)
    else some .misused

/-- How the arguments behind the command for help are understood. -/
def ofTopics : List String → Invocation
  | [] => .help none
  | [name] => if (Command.names ++ ["help"]).contains name then .help (some name) else .misused
  | _ => .misused

/-- How the arguments from the name of a command on are understood. -/
def ofCommand (parser : ArgumentParser) (name : String) (args : List String) : Invocation :=
  if name = "help" then ofTopics args
  else match Command.ofName parser name args with
    | .ok command => .run command
    | .error .help => .help (some name)
    | .error .misuse => .misused

/-- How arguments are understood, options before the command among them. -/
def ofOptions (parser : ArgumentParser) : List String → Invocation
  | [] => .misused
  | arg :: rest =>
    if arg = "--verbose" then ofOptions parser rest
    else if arg = "--version" then .version
    else if arg = "--help" then .help none
    else match arg.toList with
      | '-' :: '-' :: _ => .misused
      | '-' :: c :: letters => (ofLetters (c :: letters)).getD (ofOptions parser rest)
      | _ => ofCommand parser arg rest

/-- How arguments are understood. Two hyphens alone are none. -/
def ofArguments (parser : ArgumentParser) (args : List String) : Invocation :=
  if args = [] ∨ args = ["--"] then .idle else ofOptions parser args

end Invocation

end FieldMask
