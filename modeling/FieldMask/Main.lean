import FieldMask.Command.Run

/-!
# The program

The arguments are understood, the files that the command looks at are read, and the command is run
on what was read. The program is one without a network. Nothing else is done here.
-/

open FieldMask

/-- The paths of the files below the directory at a path. -/
partial def readBelow (path : String) : IO (List String) := do
  try
    let entries ← (← IO.FS.realPath path).readDir
    let below ← entries.toList.mapM fun e => do
      let inner := Path.join path e.fileName
      if ← (← IO.FS.realPath inner).isDir then readBelow inner else return [inner]
    return below.flatten
  catch _ => return []

/-- What is found at a path. -/
def readPath (path : String) : IO Found := do
  try
    let place ← IO.FS.realPath path
    if !(← place.pathExists) then return .nothing
    if ← place.isDir then return .directory
    return .file (← IO.FS.readBinFile place)
  catch _ => return .nothing

/-- What a command sees of the files that it looks at. -/
def readView (command : Command) : IO FileView := do
  let below ← command.sources.mapM fun path => do return (path, ← readBelow path)
  let paths := command.sources ++ (below.flatMap (·.2)).filter Path.isJsonFile
  let found ← paths.mapM fun path => do return (path, ← readPath path)
  return {
    find := fun path => (found.lookup path).getD .nothing
    below := fun path => (below.lookup path).getD [] }

/-- Write the file of a response, if it has one. -/
def writeOutput (response : Response) : IO Response := do
  match response.output with
  | none => return response
  | some (path, text) =>
    try
      IO.FS.writeFile path text
      return response
    catch
      | .noFileOrDirectory _ _ _ => return response.afterWriting (.error .missing)
      | .inappropriateType _ _ _ => return response.afterWriting (.error .notDirectory)
      | _ => return response.afterWriting (.error .isDirectory)

def main (args : List String) : IO UInt32 := do
  let parser := ArgumentParser.installed
  let invocation := Invocation.ofArguments parser args
  let view ← match invocation with
    | .run command => readView command
    | _ => pure FileEntry.empty.view
  let response ← writeOutput (invocation.respond parser view)
  (← IO.getStdout).putStr response.stdout
  (← IO.getStderr).putStr response.stderr
  return response.code.toUInt32
