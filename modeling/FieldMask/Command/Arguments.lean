/-!
# Arguments of commands

The program leaves it to a library to sort out its arguments: an `ArgumentParser` is what it takes
over from there. Which options and operands a command has is for the program to say, in a
`CommandSpec`.

The parser that follows, `ArgumentParser.installed`, is written after the rules that the library
documents. An option has a long name, behind two hyphens, and may have a short one, behind one
hyphen. A value of an option follows it, either attached (`--name=value`, `-nvalue` or `-n=value`)
or as the next argument that does not look like an option. Short options without values can be
written together, and after two hyphens alone everything is an operand. An option may be given once,
unless it is one that is counted. Arguments are taken one by one: the first that is out of place or
asks for help settles the matter, whatever comes behind it. Help and complaints are worded by the
library too; here they are a line each.
-/

namespace FieldMask

/-- What a value may be. A path is not empty. -/
inductive ValueKind
  | text
  | path

/-- Whether a text is a value of the kind. -/
def ValueKind.accepts : ValueKind → String → Bool
  | .text, _ => true
  | .path, s => s != ""

/-- An option that a command knows. -/
structure OptionSpec where
  long : String
  short : Option Char := none
  /-- The kind of its value, if it takes one. -/
  value : Option ValueKind := none
  /-- Whether the option may be given more than once. -/
  counted : Bool := false
  /-- Whether the option asks for help, and for nothing else. -/
  asksHelp : Bool := false

/-- What a command takes. -/
structure CommandSpec where
  options : List OptionSpec
  /-- The kinds of its operands, in order. -/
  operands : List ValueKind

/-- The arguments of a command, sorted out. -/
structure Arguments where
  operands : List String := []
  /-- The options that are given, by long name, with their values. -/
  options : List (String × Option String) := []

/-- Why arguments are not sorted out to the end. -/
inductive Stop
  /-- Help is asked for. -/
  | help
  /-- The arguments are not those of the command. -/
  | misuse

/-- What the program takes over from the library that sorts out its arguments. -/
structure ArgumentParser where
  /-- The arguments of a command, sorted out. -/
  sort : CommandSpec → List String → Except Stop Arguments
  /-- The text of the help on the program, or on a command. -/
  help : Option String → String
  /-- What is said about arguments that are not those of a command. -/
  complaint : String

namespace Arguments

/-- The value of an option. -/
def value? (a : Arguments) (long : String) : Option String := (a.options.lookup long).join

/-- Whether an option is given. -/
def has (a : Arguments) (long : String) : Bool := (a.options.lookup long).isSome

/-- Whether the value of an option, or the lack of one, is as the option asks for. -/
def suits (spec : OptionSpec) : Option String → Bool
  | some value => spec.value.any (·.accepts value)
  | none => spec.value.isNone

/-- Add an option, unless it asks for help, is given already and not counted, or its value is none
for it. -/
def add (a : Arguments) (spec : OptionSpec) (value : Option String) : Except Stop Arguments :=
  if spec.asksHelp && value.isNone then .error .help
  else if !suits spec value || (a.has spec.long && !spec.counted) then .error .misuse
  else .ok { a with options := a.options ++ [(spec.long, value)] }

/-- Add an operand, if one more of its kind is wanted. -/
def addOperand (spec : CommandSpec) (a : Arguments) (arg : String) : Except Stop Arguments :=
  if spec.operands[a.operands.length]?.any (·.accepts arg) then
    .ok { a with operands := a.operands ++ [arg] }
  else .error .misuse

/-- What an argument that begins with a hyphen leaves to do. -/
inductive Pending
  | nothing
  /-- The value of an option is still to come. -/
  | value (spec : OptionSpec)

/-- An option of the command, if there is one that the test finds. -/
def known (spec : CommandSpec) (test : OptionSpec → Bool) : Except Stop OptionSpec :=
  match spec.options.find? test with
  | some option => .ok option
  | none => .error .misuse

/-- Take an argument behind two hyphens. -/
def addLong (spec : CommandSpec) (a : Arguments) (text : List Char) :
    Except Stop (Arguments × Pending) := do
  let name := String.ofList (text.takeWhile (· != '='))
  let option ← known spec (·.long == name)
  match text.dropWhile (· != '=') with
  | _ :: value => return (← a.add option (some (String.ofList value)), .nothing)
  | [] =>
    if option.value.isSome then return (a, .value option)
    else return (← a.add option none, .nothing)

/-- Take the letters behind a single hyphen. -/
def addShort (spec : CommandSpec) (a : Arguments) : List Char → Except Stop (Arguments × Pending)
  | [] => .ok (a, .nothing)
  | c :: rest => do
    let option ← known spec (·.short == some c)
    if option.value.isSome then
      match rest with
      | [] => return (a, .value option)
      | '=' :: value => return (← a.add option (some (String.ofList value)), .nothing)
      | value => return (← a.add option (some (String.ofList value)), .nothing)
    else addShort spec (← a.add option none) rest

/-- Sort out arguments, given those that are sorted out already and what is pending. -/
def sortFrom (spec : CommandSpec) (a : Arguments) (pending : Pending) :
    List String → Except Stop Arguments
  | [] =>
    match pending with
    | .nothing => .ok a
    | .value _ => .error .misuse
  | arg :: rest =>
    match arg.toList, pending with
    | ['-', '-'], .nothing => rest.foldlM (addOperand spec) a
    | ['-', '-'], .value _ => .error .misuse
    | '-' :: '-' :: text, .nothing => do
      let (a, pending) ← addLong spec a text
      sortFrom spec a pending rest
    | '-' :: c :: text, .nothing => do
      let (a, pending) ← addShort spec a (c :: text)
      sortFrom spec a pending rest
    | '-' :: _ :: _, .value _ => .error .misuse
    | _, .value option => do sortFrom spec (← a.add option (some arg)) .nothing rest
    | _, .nothing => do sortFrom spec (← a.addOperand spec arg) .nothing rest

/-- Sort out arguments. Fewer operands than the command has are too few. -/
def sort (spec : CommandSpec) (args : List String) : Except Stop Arguments := do
  let a ← sortFrom spec {} .nothing args
  if a.operands.length = spec.operands.length then return a else throw .misuse

end Arguments

/-- The parser that the program is linked with, the wording of its texts aside. -/
def ArgumentParser.installed : ArgumentParser where
  sort := Arguments.sort
  help name := "Usage: mask-schema " ++ name.getD "[OPTIONS] <COMMAND>" ++ "\n"
  complaint := "error: the arguments are not those of a command\n\n"
    ++ "Usage: mask-schema [OPTIONS] <COMMAND>\n"

end FieldMask
