import StreamedUi.CommandLine.Usage
import StreamedUi.FileSystem
import StreamedUi.Patch.Stream
import StreamedUi.Project.Basic

/-! Running the program on a file system. A command reads patches from a file or from the standard
input; one that fails says why and ends with code 1, and misuse ends with code 2. -/

namespace StreamedUi.CommandLine

/-- Why a command failed. -/
inductive Failure
  | system (cause : Cause)
  | notText
  | noRoot
  deriving DecidableEq, Repr

/-- What a failure says. -/
def Failure.message : Failure → String
  | .system cause => "IO error: " ++ cause.message
  | .notText => "IO error: stream did not contain valid UTF-8"
  | .noRoot => "Tree has no root element"

/-- What the user sees of a failure. -/
def Failure.line (f : Failure) : String := "✗ " ++ f.message

/-- The input that stands for the standard input. -/
def standardInput : String := "-"

/-! ## Commands -/

/-- The tree that the patches of an input make. -/
def loadTree (bytes : ByteArray) : Except Failure Tree :=
  match String.fromUTF8? bytes with
  | some text => .ok (Tree.empty.applyText text).1
  | none => .error .notText

/-- The files of a tree's project, which it has only if its root element is there. -/
def projectFiles (options : Markup.Options) (t : Tree) : Except Failure (List ProjectFile) :=
  if t.rootElement?.isSome then .ok (Project.files options t) else .error .noRoot

/-- What is printed once the files are written. -/
def writtenLine (files : List ProjectFile) (out : String) : String :=
  "✓ " ++ toString files.length ++ " file(s) written to " ++ out ++ "\n"

/-- What is printed of an analysis, indented. -/
def analysisText (t : Tree) : String := t.analyze.toValue.pretty ++ "\n"

/-- A command under way. -/
abbrev Job := ExceptT Failure (StateM FileSystem)

/-- An operation of the file system as part of a command. -/
def Job.ofAction {α : Type} (action : FileSystem.Action α) : Job α :=
  ExceptT.adapt Failure.system action

/-- A result that may be a failure as part of a command. -/
def Job.ofExcept {α : Type} : Except Failure α → Job α
  | .ok a => return a
  | .error f => throw f

/-- The bytes of the input: those of a file, or what came in on the standard input. -/
def readInput (stdin : ByteArray) (input : String) : Job ByteArray :=
  if input = standardInput then return stdin
  else Job.ofAction (FileSystem.read (.ofString input))

/-- Writes a file and makes the directories that it needs. -/
def writeFile (out : String) (f : ProjectFile) : FileSystem.Action Unit := do
  let target := Path.inside out f.path
  FileSystem.ensureDirectories target.parent
  FileSystem.write target f.content.toUTF8

/-- Writes files one after another, so that a failure leaves those before it written. -/
def writeFiles (out : String) : List ProjectFile → FileSystem.Action Unit
  | [] => return
  | f :: fs => do
    writeFile out f
    writeFiles out fs

/-- Does what a command asks for; the result is what it prints. -/
def Command.execute (stdin : ByteArray) : Command → Job String
  | .analyze input => do
    let bytes ← readInput stdin input
    let t ← Job.ofExcept (loadTree bytes)
    return analysisText t
  | .generate input out options => do
    let bytes ← readInput stdin input
    let t ← Job.ofExcept (loadTree bytes)
    let files ← Job.ofExcept (projectFiles options t)
    Job.ofAction (writeFiles out files)
    return writtenLine files out

/-! ## Runs -/

/-- How a run ended. -/
structure Report where
  code : Nat
  /-- What went to the standard output. -/
  output : String := ""
  failure : Option Failure := none
  deriving DecidableEq, Repr

/-- The report on a command: code 0 and its output, or code 1 and why it failed. -/
def Report.ofResult : Except Failure String → Report
  | .ok output => { code := 0, output }
  | .error f => { code := 1, failure := some f }

/-- A run of the program: its report, and the files that it leaves. -/
def run (arguments : List String) (stdin : ByteArray) (fs : FileSystem) : Report × FileSystem :=
  match Request.ofArguments arguments with
  | .misuse => ({ code := 2 }, fs)
  | .version => ({ code := 0, output := versionText }, fs)
  | .help topic => ({ code := 0, output := helpText topic }, fs)
  | .command c =>
    let (result, fs) := (c.execute stdin).run fs
    (.ofResult result, fs)

end StreamedUi.CommandLine
