import StreamedUi.CommandLine.Run

/-! The program on the real file system. -/

namespace StreamedUi.CommandLine

/-- The cause of an error of the system, if it is one that commands run into. Its number may come
negated. -/
def cause? : IO.Error → Option Cause
  | .noFileOrDirectory _ _ _ => some .notFound
  | .alreadyExists _ _ _ => some .exists
  | .inappropriateType _ code _ =>
    [Cause.notDirectory, Cause.isDirectory].find? fun cause =>
      code.toNat == cause.code || code.toNat + cause.code == Nat.pow 2 32
  | _ => none

/-- What the user sees of an error of the system. -/
def systemLine (e : IO.Error) : String :=
  match cause? e with
  | some cause => (Failure.system cause).line
  | none => "✗ IO error: " ++ toString e

/-- The bytes of the input. -/
def readSource (input : String) : IO ByteArray := do
  if input = standardInput then (← IO.getStdin).readBinToEnd
  else IO.FS.readBinFile input

/-- Writes the files and makes the directories that they need. -/
def writeProject (out : String) (files : List ProjectFile) : IO Unit := do
  for f in files do
    let target := out ++ "/" ++ f.path
    match Text.splitLast? ['/'] target.toList with
    | some (directory, _) => IO.FS.createDirAll (String.ofList directory)
    | none => pure ()
    IO.FS.writeFile target f.content

/-- Ends with code 1 after saying why. -/
def fail (line : String) : IO UInt32 := do
  IO.eprintln line
  return 1

/-- Does what a command asks for. -/
def perform : Command → IO UInt32
  | .analyze input => do
    match loadTree (← readSource input) with
    | .error f => fail f.line
    | .ok t =>
      IO.print (analysisText t)
      return 0
  | .generate input out options => do
    match (loadTree (← readSource input)).bind (projectFiles options) with
    | .error f => fail f.line
    | .ok files =>
      writeProject out files
      IO.print (writtenLine files out)
      return 0

end StreamedUi.CommandLine

open StreamedUi.CommandLine in
def main (arguments : List String) : IO UInt32 := do
  match Request.ofArguments arguments with
  | .misuse =>
    IO.eprint (helpText .program)
    return 2
  | .version =>
    IO.print versionText
    return 0
  | .help topic =>
    IO.print (helpText topic)
    return 0
  | .command c =>
    try perform c
    catch e => fail (systemLine e)
