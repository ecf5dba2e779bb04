import StreamedUi.Patch.Operation
import StreamedUi.Text.Lines

/-! Applying patches to a tree, from whole texts or from chunks. Rejected lines are counted and
otherwise passed over, blank ones are not even counted. A patcher holds the unfinished last line of
what it has been given. -/

namespace StreamedUi

/-- How many lines were applied and how many were not. -/
structure Stats where
  applied : Nat := 0
  skipped : Nat := 0
  deriving DecidableEq, Repr

namespace Stats

def zero : Stats := {}

instance : Add Stats := ⟨fun s t => ⟨s.applied + t.applied, s.skipped + t.skipped⟩⟩

/-- The count of one line. -/
def ofLine (applied : Bool) : Stats := if applied then ⟨1, 0⟩ else ⟨0, 1⟩

end Stats

namespace Tree

/-- Sets the root, or puts an element in place of one with its key, and counts the patch. -/
def apply (t : Tree) : Operation → Tree
  | .setRoot key => { t with root := some key, version := t.version + 1 }
  | .put key e => { t with elements := t.elements.insert key e, version := t.version + 1 }

/-- The tree after a line, and whether the line was an operation. -/
def applyLine (t : Tree) (line : String) : Tree × Bool :=
  match Operation.ofLine? line with
  | some op => (t.apply op, true)
  | none => (t, false)

/-- The tree after some lines, and how many of them were operations. -/
def applyLines (t : Tree) : List String → Tree × Stats
  | [] => (t, .zero)
  | line :: rest =>
    if Text.isBlankText line then t.applyLines rest
    else
      let (t', applied) := t.applyLine line
      let (t'', stats) := t'.applyLines rest
      (t'', .ofLine applied + stats)

/-- The tree after the lines of a text. -/
def applyText (t : Tree) (text : String) : Tree × Stats := t.applyLines (Text.lines text)

/-- What applying a text reports. -/
def textNotices (text : String) : List Notice :=
  ((Text.lines text).filter (!Text.isBlankText ·)).flatMap Operation.notices

end Tree

/-- A stream of patches that arrives in chunks: the unfinished line, and the counts so far. -/
structure Patcher where
  pending : String := ""
  stats : Stats := {}
  deriving DecidableEq, Repr

namespace Patcher

/-- Nothing pushed yet. -/
def empty : Patcher := {}

/-- Applies the lines that a chunk completes, and counts them. -/
def push (p : Patcher) (t : Tree) (chunk : String) : Patcher × Tree × Stats :=
  let (complete, rest) := Text.splitAtLastNewline (p.pending ++ chunk).toList
  let (t', stats) := t.applyText (String.ofList complete)
  (⟨String.ofList rest, p.stats + stats⟩, t', stats)

/-- Applies the unfinished line as the last one. -/
def finish (p : Patcher) (t : Tree) : Patcher × Tree × Stats :=
  let (t', stats) := t.applyText p.pending
  (⟨"", p.stats + stats⟩, t', stats)

/-- Drops the unfinished line. -/
def reset (p : Patcher) : Patcher := { p with pending := "" }

end Patcher

end StreamedUi
