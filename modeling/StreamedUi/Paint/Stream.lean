import StreamedUi.Notice
import StreamedUi.Paint.Painter
import StreamedUi.Text.Utf8

/-! Painting a stream of chunks over time, at most once per frame before the end. The first chunk
after a repaint sets a deadline one frame ahead; a repaint that is due comes before whatever happens
at that time. Time is in milliseconds. -/

namespace StreamedUi.Paint

/-- What can happen to a stream: text or bytes arrive, it fails, it is cancelled. -/
inductive Event
  | text (s : String)
  | bytes (bs : List UInt8)
  | error (message : String)
  | cancel
  /-- Time passes. -/
  | pause
  deriving DecidableEq, Repr

/-- An event, and how long after the one before it. -/
structure TimedEvent where
  after : Nat := 0
  event : Event
  deriving DecidableEq, Repr

/-- What was painted, and when. -/
structure Painting where
  time : Nat
  html : String
  deriving DecidableEq, Repr

/-- How a stream ended. -/
inductive Outcome
  /-- The stream ended; its whole text was painted last. -/
  | completed (text : String)
  | cancelled
  | failed (message : String)
  deriving DecidableEq, Repr

/-- What is said of a stream that failed. -/
def Outcome.failureMessage (message : String) : String := "Stream error: " ++ message

/-- A whole stream: how it ended, the paintings, the time it took and what it reported. -/
structure Run where
  outcome : Outcome
  paintings : List Painting
  elapsed : Nat
  notices : List Notice
  deriving DecidableEq, Repr

/-- A stream under way. -/
structure Session where
  frame : Nat
  now : Nat := 0
  painter : Painter := {}
  reader : Text.Utf8Reader := {}
  /-- When the pending repaint is due. -/
  deadline : Option Nat := none
  deriving DecidableEq, Repr

namespace Session

/-- Lets time pass, with the repaint that becomes due on the way. -/
def advance (s : Session) (after : Nat) : Session × List Painting :=
  let now := s.now + after
  match s.deadline with
  | some d =>
    if d ≤ now then
      let (painter, painted) := s.painter.flush
      ({ s with now, painter, deadline := none }, painted.toList.map (⟨d, ·⟩))
    else ({ s with now }, [])
  | none => ({ s with now }, [])

/-- Takes the text of a chunk. -/
def receive (s : Session) (text : String) : Session :=
  if text.isEmpty then s
  else
    let (painter, schedule) := s.painter.push text
    { s with painter, deadline := if schedule then some (s.now + s.frame) else s.deadline }

/-- The end of the stream: bytes that are still held belong to its text. -/
def finish (s : Session) : Run :=
  let (_, tail) := s.reader.finish
  let painter := if tail.isEmpty then s.painter else (s.painter.push tail).1
  let (_, text) := painter.finish
  ⟨.completed text, [⟨s.now, text⟩], s.now, []⟩

/-- A run with paintings before its own. -/
def Run.paintFirst (paintings : List Painting) (r : Run) : Run :=
  { r with paintings := paintings ++ r.paintings }

/-- The events one after another; after an error or a cancellation nothing is read any more. -/
def run (s : Session) : List TimedEvent → Run
  | [] =>
    let (s, due) := s.advance 0
    Run.paintFirst due s.finish
  | e :: rest =>
    let (s, due) := s.advance e.after
    Run.paintFirst due <|
      match e.event with
      | .text text => (s.receive text).run rest
      | .bytes bs =>
        let (reader, text) := s.reader.push bs
        ({ s with reader }.receive text).run rest
      | .pause => s.run rest
      | .error message => ⟨.failed message, [], s.now, []⟩
      | .cancel => ⟨.cancelled, [], s.now, [.debug "HTML stream cancelled"]⟩

end Session

/-- Paints a stream of events. A stream that is cancelled beforehand is not read. -/
def paintStream (frame : Nat) (cancelled : Bool) (events : List TimedEvent) : Run :=
  if cancelled then ⟨.cancelled, [], 0, [.debug "HTML stream cancelled"]⟩
  else Session.run { frame } events

end StreamedUi.Paint
