import StreamedUi.Text.Search

/-! Painting HTML while it arrives. Before the end only text through a closing tag is painted, so a
tag that is cut off never shows. Text that comes while a repaint is pending only grows the buffer.
-/

namespace StreamedUi.Paint

/-- The text through the first `>` at or after the last `</`, if both are there. -/
def closedText? (cs : List Char) : Option (List Char) := do
  let (before, tag) ← Text.splitLast? ['<', '/'] cs
  let tag ← Text.takeThrough? '>' tag
  return before ++ tag

/-- The part of a buffer that may be painted. -/
def safePrefix (buffer : String) : String :=
  String.ofList ((closedText? buffer.toList).getD [])

/-- The text so far, and what has been painted of it. -/
structure Painter where
  buffer : String := ""
  lastPainted : String := ""
  /-- Whether a repaint has been asked for. -/
  repaintPending : Bool := false
  deriving DecidableEq, Repr

namespace Painter

/-- Nothing pushed and nothing painted. -/
def empty : Painter := {}

/-- Adds text. The caller has to schedule a repaint unless one is pending already. -/
def push (p : Painter) (text : String) : Painter × Bool :=
  ({ p with buffer := p.buffer ++ text, repaintPending := true }, !p.repaintPending)

/-- Runs the repaint: what is painted, unless that is nothing or nothing new. -/
def flush (p : Painter) : Painter × Option String :=
  let text := safePrefix p.buffer
  if text.isEmpty || text == p.lastPainted then ({ p with repaintPending := false }, none)
  else ({ p with lastPainted := text, repaintPending := false }, some text)

/-- Paints the whole buffer and starts anew. -/
def finish (p : Painter) : Painter × String := (empty, p.buffer)

/-- Drops everything. -/
def cancel (_ : Painter) : Painter := empty

end Painter

end StreamedUi.Paint
