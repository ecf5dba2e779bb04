import StreamedUi.Text.Search

/-! A file system as far as the program uses it: files and directories, and a working directory from
which relative paths start. Operations fail as those of a POSIX system do, and what an operation did
before it failed stays done. -/

namespace StreamedUi

/-- A part of a path. -/
structure Part where
  name : String
  /-- How many bytes the path takes through this part. -/
  through : Nat
  deriving DecidableEq, Repr

namespace Part

/-- The name that stands for the directory reached so far. -/
def here : String := "."

/-- The name that stands for the directory above. -/
def up : String := ".."

/-- The parts of a text that slashes divide into segments, of which empty ones are none. The first
argument is the number of bytes before the text. -/
def ofSegments (before : Nat) : List (List Char) → List Part
  | [] => []
  | segment :: rest =>
    let name := String.ofList segment
    let through := before + name.utf8ByteSize
    if segment.isEmpty then ofSegments (through + 1) rest
    else ⟨name, through⟩ :: ofSegments (through + 1) rest

end Part

/-- A path as written. A slash at its end counts as a last part that asks for a directory. -/
structure Path where
  absolute : Bool
  parts : List Part
  /-- How many bytes the path takes. -/
  size : Nat
  deriving DecidableEq, Repr

namespace Path

/-- The path that a text writes. One that begins with a slash starts at the root. -/
def ofString (s : String) : Path :=
  let cs := s.toList
  let parts := Part.ofSegments 0 (Text.splitOn '/' cs)
  let slashEnds := cs.getLast? = some '/' && !parts.isEmpty
  ⟨cs.head? = some '/', if slashEnds then parts ++ [⟨Part.here, s.utf8ByteSize⟩] else parts,
    s.utf8ByteSize⟩

/-- The path that the parts make by themselves. -/
def ofParts (absolute : Bool) (parts : List Part) : Path :=
  ⟨absolute, parts, (parts.getLast?.map Part.through).getD 0⟩

/-- The path of something in a directory. -/
def inside (directory name : String) : Path :=
  ofString <|
    if directory.toList.getLast?.all (· == '/') then directory ++ name
    else directory ++ "/" ++ name

/-- The path that is left without the last part. Parts that lead nowhere are left out. -/
def parent (p : Path) : Path :=
  ofParts p.absolute (p.parts.dropLast.filter (·.name ≠ Part.here))

end Path

/-- The names that lead from the root to a place. -/
abbrev Location := List String

local instance decidableEqByteArray : DecidableEq ByteArray := ByteArray.instDecidableEq

/-- What can be at a place. -/
inductive Entry
  | directory
  | file (content : ByteArray)
  deriving DecidableEq

/-- Why an operation failed. -/
inductive Cause
  | notFound
  | exists
  | notDirectory
  | isDirectory
  | nameTooLong
  deriving DecidableEq, Repr

namespace Cause

/-- What the system calls the cause. -/
def name : Cause → String
  | .notFound => "No such file or directory"
  | .exists => "File exists"
  | .notDirectory => "Not a directory"
  | .isDirectory => "Is a directory"
  | .nameTooLong => "File name too long"

/-- The number that the system has for the cause. -/
def code : Cause → Nat
  | .notFound => 2
  | .exists => 17
  | .notDirectory => 20
  | .isDirectory => 21
  | .nameTooLong => 36

/-- What an error of this cause says. -/
def message (c : Cause) : String := c.name ++ " (os error " ++ toString c.code ++ ")"

end Cause

/-- The files and directories at their places, and the working directory. -/
structure FileSystem where
  entries : List (Location × Entry) := []
  /-- Where relative paths start. -/
  working : Location := []
  deriving DecidableEq

namespace FileSystem

/-- What is at a place. The root is always a directory. -/
def entryAt? (fs : FileSystem) (l : Location) : Option Entry :=
  if l = [] then some .directory else fs.entries.lookup l

/-- Puts an entry at a place, over the one that is there. -/
def setEntry : List (Location × Entry) → Location → Entry → List (Location × Entry)
  | [], l, e => [(l, e)]
  | (k, d) :: rest, l, e => if k = l then (k, e) :: rest else (k, d) :: setEntry rest l e

/-- The file system with an entry at a place and all else as it was. -/
def set (fs : FileSystem) (l : Location) (e : Entry) : FileSystem :=
  { fs with entries := setEntry fs.entries l e }

/-- The place that one part leads to; there need not be anything. -/
def step (fs : FileSystem) (l : Location) (part : Part) : Except Cause Location :=
  match fs.entryAt? l with
  | none => .error .notFound
  | some (.file _) => .error .notDirectory
  | some .directory =>
    if part.name = Part.here then .ok l
    else if part.name = Part.up then .ok l.dropLast
    else if 255 < part.name.utf8ByteSize then .error .nameTooLong
    else .ok (l ++ [part.name])

/-- The place that a path leads to. -/
def locate (fs : FileSystem) (p : Path) : Except Cause Location :=
  if p.parts.isEmpty && !p.absolute then .error .notFound
  else if 4096 ≤ p.size then .error .nameTooLong
  else p.parts.foldlM fs.step (if p.absolute then [] else fs.working)

/-- Whether a path leads to a directory. -/
def isDirectory (fs : FileSystem) (p : Path) : Bool :=
  match fs.locate p with
  | .ok l => fs.entryAt? l = some .directory
  | .error _ => false

/-- A computation that changes a file system and may fail. -/
abbrev Action := ExceptT Cause (StateM FileSystem)

/-- The place that a path leads to now. -/
def place (p : Path) : Action Location := do
  match (← get).locate p with
  | .ok l => return l
  | .error cause => throw cause

/-- The content of a file. -/
def read (p : Path) : Action ByteArray := do
  let l ← place p
  match (← get).entryAt? l with
  | some (.file content) => return content
  | some .directory => throw .isDirectory
  | none => throw .notFound

/-- Writes a file anew. -/
def write (p : Path) (content : ByteArray) : Action Unit := do
  let l ← place p
  match (← get).entryAt? l with
  | some .directory => throw .isDirectory
  | _ => modify (·.set l (.file content))

/-- Makes one directory. -/
def makeDirectory (p : Path) : Action Unit := do
  let l ← place p
  match (← get).entryAt? l with
  | some _ => throw .exists
  | none => modify (·.set l .directory)

/-- Makes one directory unless it is there. -/
def ensureDirectory (p : Path) : Action Unit :=
  tryCatch (makeDirectory p) fun cause => do
    if (← get).isDirectory p then return
    else throw cause

/-- Makes the directories of a path whose parts are given from the last to the first. -/
def ensureParts (absolute : Bool) : List Part → Action Unit
  | [] => return
  | part :: above =>
    let p := Path.ofParts absolute (part :: above).reverse
    tryCatch (ensureDirectory p) fun cause => do
      if cause = .notFound then
        ensureParts absolute above
        ensureDirectory p
      else throw cause

/-- Makes a directory and those above it, as far as they are not there. -/
def ensureDirectories (p : Path) : Action Unit := ensureParts p.absolute p.parts.reverse

end FileSystem

end StreamedUi
