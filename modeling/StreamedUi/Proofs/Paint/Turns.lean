import Mathlib.Data.List.Basic
import StreamedUi.Paint.Stream
import StreamedUi.Proofs.Paint.Painter

/-! The turns of a stream's loop: each one runs the repaint that is due or takes a chunk.
`Session.turns` lists them for a sequence of events, with the stream as each one leaves it. They are
steps that lead from the beginning of a run to its end (`Session.run_eq`), their chunks are those of
the events (`Session.chunks_turns`), and what they paint is all that is painted before the end
(`Session.paintings_run`). -/

namespace StreamedUi.Paint

/-- What a turn does. -/
inductive Act
  /-- Runs the repaint: with this buffer, and with what is painted, if anything is. -/
  | repaint (buffer : String) (painted : Option String)
  /-- Takes a chunk, with the text that is read from it. -/
  | chunk (text : String)
  deriving DecidableEq, Repr

/-- A turn of the loop, and the stream after it. -/
structure Turn where
  act : Act
  session : Session
  deriving DecidableEq, Repr

/-- Text that comes with a chunk, and when. -/
structure Arrival where
  time : Nat
  text : String
  deriving DecidableEq, Repr

namespace Turn

/-- When the turn is taken. -/
def time (t : Turn) : Nat := t.session.now

/-- The turn runs a repaint, whether or not anything is painted. -/
def Repaints (t : Turn) : Prop := ∃ buffer painted, t.act = .repaint buffer painted

/-- What the turn paints. -/
def painting? (t : Turn) : Option Painting :=
  match t.act with
  | .repaint _ painted => painted.map (⟨t.time, ·⟩)
  | .chunk _ => none

/-- The chunk that the turn takes. -/
def arrival? (t : Turn) : Option Arrival :=
  match t.act with
  | .repaint _ _ => none
  | .chunk text => some ⟨t.time, text⟩

/-- The text that the turn adds to the buffer. -/
def text (t : Turn) : String :=
  match t.act with
  | .repaint _ _ => ""
  | .chunk text => text

end Turn

/-- The chunks of the events up to an error or a cancellation, and when each one comes. -/
def arrivals (now : Nat) (reader : Text.Utf8Reader) : List TimedEvent → List Arrival
  | [] => []
  | e :: rest =>
    match e.event with
    | .text text => ⟨now + e.after, text⟩ :: arrivals (now + e.after) reader rest
    | .bytes bs =>
      let (reader, text) := reader.push bs
      ⟨now + e.after, text⟩ :: arrivals (now + e.after) reader rest
    | .pause => arrivals (now + e.after) reader rest
    | .error _ | .cancel => []

/-- The painting at the end of a stream, if that was reached. -/
def Run.final (r : Run) : List Painting :=
  match r.outcome with
  | .completed text => [⟨r.elapsed, text⟩]
  | .cancelled | .failed _ => []

@[simp] theorem Run.final_paintFirst (paintings : List Painting) (r : Run) :
    (Session.Run.paintFirst paintings r).final = r.final := rfl

namespace Session

theorem Run.paintFirst_paintFirst (earlier later : List Painting) (r : Run) :
    Run.paintFirst earlier (Run.paintFirst later r) = Run.paintFirst (earlier ++ later) r := by
  rw [paintFirst, paintFirst, paintFirst, List.append_assoc]

/-- How events end a stream that has come this far. -/
def stop (s : Session) : List TimedEvent → Run
  | [] => s.finish
  | e :: rest =>
    match e.event with
    | .text _ | .bytes _ | .pause => s.stop rest
    | .error message => ⟨.failed message, [], s.now, []⟩
    | .cancel => ⟨.cancelled, [], s.now, [.debug "HTML stream cancelled"]⟩

theorem paintings_stop (s : Session) (events : List TimedEvent) :
    (s.stop events).paintings = (s.stop events).final := by
  induction events with
  | nil => rfl
  | cons e rest ih =>
    unfold stop
    cases e.event with
    | text | bytes | pause => exact ih
    | error message => rfl
    | cancel => rfl

theorem elapsed_stop (s : Session) (events : List TimedEvent) :
    (s.stop events).elapsed = s.now := by
  induction events with
  | nil => rfl
  | cons e rest ih =>
    unfold stop
    cases e.event with
    | text | bytes | pause => exact ih
    | error message => rfl
    | cancel => rfl

/-- The stream after the repaint that is due at `time`. -/
def repaint (s : Session) (time : Nat) : Session :=
  { s with now := time, painter := s.painter.flush.1, deadline := none }

/-- The turn that runs this repaint. -/
def repaintTurn (s : Session) (time : Nat) : Turn :=
  ⟨.repaint s.painter.buffer s.painter.flush.2, s.repaint time⟩

/-- The stream takes the text of a chunk, with the reader that has read it. -/
def chunkTurn (s : Session) (reader : Text.Utf8Reader) (text : String) : Turn :=
  ⟨.chunk text, { s with reader }.receive text⟩

/-- The turn, if there is one, that comes while time passes. -/
def dueTurns (s : Session) (after : Nat) : List Turn :=
  match s.deadline with
  | some d => if d ≤ s.now + after then [s.repaintTurn d] else []
  | none => []

/-- The turns of the loop, until the stream ends, fails or is cancelled. -/
def turns (s : Session) : List TimedEvent → List Turn
  | [] => s.dueTurns 0
  | e :: rest =>
    let s' := (s.advance e.after).1
    s.dueTurns e.after ++
      match e.event with
      | .text text =>
        let turn := s'.chunkTurn s'.reader text
        turn :: turn.session.turns rest
      | .bytes bs =>
        let (reader, text) := s'.reader.push bs
        let turn := s'.chunkTurn reader text
        turn :: turn.session.turns rest
      | .pause => s'.turns rest
      | .error _ | .cancel => []

/-! ## Steps -/

/-- What a turn can do. -/
inductive Step (s : Session) : Turn → Prop
  | repaint {d : Nat} : s.deadline = some d → Step s (s.repaintTurn d)
  | chunk (reader : Text.Utf8Reader) (text : String) : Step s (s.chunkTurn reader text)

/-- Turns one after the other. Time passes between them, but not as long as to a deadline. -/
inductive Steps : Session → List Turn → Session → Prop
  | done {s} : Steps s [] s
  | wait {s now turns s'} : s.now ≤ now → (∀ d, s.deadline = some d → now < d) →
    Steps { s with now } turns s' → Steps s turns s'
  | turn {s turn turns s'} : s.Step turn → turn.session.Steps turns s' → Steps s (turn :: turns) s'

variable {s s' mid : Session} {turn : Turn} {front back : List Turn}

theorem Steps.append (h : s.Steps front mid) (h' : mid.Steps back s') :
    s.Steps (front ++ back) s' := by
  induction h with
  | done => exact h'
  | wait hnow hdeadline _ ih => exact .wait hnow hdeadline (ih h')
  | turn hstep _ ih => exact .turn hstep (ih h')

/-- The turns before some turn, the turn itself, and those after it. -/
theorem Steps.split (h : s.Steps (front ++ turn :: back) s') :
    ∃ mid, s.Steps front mid ∧ mid.Step turn ∧ turn.session.Steps back s' := by
  generalize hturns : front ++ turn :: back = turns at h
  induction h generalizing front with
  | done => simp at hturns
  | wait hnow hdeadline _ ih =>
    obtain ⟨mid, hfront, hturn, hback⟩ := ih hturns
    exact ⟨mid, .wait hnow hdeadline hfront, hturn, hback⟩
  | turn hstep hrest ih =>
    cases front with
    | nil =>
      cases hturns
      exact ⟨_, .done, hstep, hrest⟩
    | cons first front =>
      cases hturns
      obtain ⟨mid, hfront, hturn, hback⟩ := ih rfl
      exact ⟨mid, .turn hstep hfront, hturn, hback⟩

/-! ## The turns of a run -/

@[simp] theorem now_receive (s : Session) (text : String) : (s.receive text).now = s.now := by
  unfold receive
  split <;> rfl

@[simp] theorem frame_receive (s : Session) (text : String) :
    (s.receive text).frame = s.frame := by
  unfold receive
  split <;> rfl

@[simp] theorem reader_receive (s : Session) (text : String) :
    (s.receive text).reader = s.reader := by
  unfold receive
  split <;> rfl

/-- What is done while time passes: the repaint, if it becomes due. -/
theorem advance_cases (s : Session) (after : Nat) :
    (∃ d, s.deadline = some d ∧ d ≤ s.now + after ∧ s.dueTurns after = [s.repaintTurn d] ∧
      s.advance after = ({ s.repaint d with now := s.now + after },
        (s.repaintTurn d).painting?.toList)) ∨
    (∀ d, s.deadline = some d → s.now + after < d) ∧ s.dueTurns after = [] ∧
      s.advance after = ({ s with now := s.now + after }, []) := by
  cases hdeadline : s.deadline with
  | none => exact .inr ⟨nofun, by simp [dueTurns, hdeadline], by simp [advance, hdeadline]⟩
  | some d =>
    by_cases hd : d ≤ s.now + after
    · refine .inl ⟨d, rfl, hd, by simp [dueTurns, hdeadline, hd], ?_⟩
      simp only [advance, hdeadline, hd, if_true]
      cases hpainted : s.painter.flush.2
      all_goals simp [repaintTurn, repaint, Turn.painting?, Turn.time, hpainted]
    · refine .inr ⟨?_, by simp [dueTurns, hdeadline, hd], by simp [advance, hdeadline, hd]⟩
      rintro _ ⟨⟩
      exact Nat.lt_of_not_le hd

/-- A stream that has waited has no deadline behind it. -/
theorem steps_advance (s : Session) (after : Nat) :
    s.Steps (s.dueTurns after) (s.advance after).1 ∧
      ∀ d, (s.advance after).1.deadline = some d → (s.advance after).1.now < d := by
  rcases s.advance_cases after with ⟨d, hdeadline, hd, hturns, hadvance⟩ | ⟨hd, hturns, hadvance⟩
  · rw [hturns, hadvance]
    exact ⟨.turn (.repaint hdeadline) (.wait hd nofun .done), nofun⟩
  · rw [hturns, hadvance]
    exact ⟨.wait (Nat.le_add_right _ _) hd .done, hd⟩

@[simp] theorem now_advance (s : Session) (after : Nat) :
    (s.advance after).1.now = s.now + after := by
  rcases s.advance_cases after with ⟨d, -, -, -, hadvance⟩ | ⟨-, -, hadvance⟩
  all_goals rw [hadvance]

@[simp] theorem reader_advance (s : Session) (after : Nat) :
    (s.advance after).1.reader = s.reader := by
  rcases s.advance_cases after with ⟨d, -, -, -, hadvance⟩ | ⟨-, -, hadvance⟩
  · rw [hadvance]
    rfl
  · rw [hadvance]

theorem paintings_advance (s : Session) (after : Nat) :
    (s.advance after).2 = (s.dueTurns after).filterMap Turn.painting? := by
  rcases s.advance_cases after with ⟨d, -, -, hturns, hadvance⟩ | ⟨-, hturns, hadvance⟩
  · rw [hturns, hadvance]
    cases hpainting : (s.repaintTurn d).painting? <;> simp [hpainting]
  · rw [hturns, hadvance]
    rfl

theorem arrivals_dueTurns (s : Session) (after : Nat) :
    (s.dueTurns after).filterMap Turn.arrival? = [] := by
  rcases s.advance_cases after with ⟨d, -, -, hturns, -⟩ | ⟨-, hturns, -⟩
  all_goals rw [hturns]; rfl

/-- The turns of a run lead from its beginning to its end, where no repaint is overdue. -/
theorem run_eq (s : Session) (events : List TimedEvent) :
    ∃ s', s.Steps (s.turns events) s' ∧ (∀ d, s'.deadline = some d → s'.now < d) ∧
      s.run events =
        Run.paintFirst ((s.turns events).filterMap Turn.painting?) (s'.stop events) := by
  induction events generalizing s with
  | nil =>
    obtain ⟨hsteps, hdeadline⟩ := s.steps_advance 0
    refine ⟨_, hsteps, hdeadline, ?_⟩
    unfold turns
    rw [← paintings_advance]
    rfl
  | cons e rest ih =>
    obtain ⟨hsteps, hdeadline⟩ := s.steps_advance e.after
    unfold turns run stop
    simp only [List.filterMap_append, ← paintings_advance, ← Run.paintFirst_paintFirst]
    cases e.event with
    | text text =>
      obtain ⟨s', hrest, hlast, hrun⟩ := ih ((s.advance e.after).1.receive text)
      exact ⟨s', hsteps.append (.turn (.chunk _ text) hrest), hlast, congrArg _ hrun⟩
    | bytes bs =>
      let s' := (s.advance e.after).1
      let pushed := s'.reader.push bs
      obtain ⟨s'', hrest, hlast, hrun⟩ := ih ({ s' with reader := pushed.1 }.receive pushed.2)
      exact ⟨s'', hsteps.append (.turn (.chunk pushed.1 pushed.2) hrest), hlast, congrArg _ hrun⟩
    | pause =>
      obtain ⟨s', hrest, hlast, hrun⟩ := ih (s.advance e.after).1
      exact ⟨s', hsteps.append hrest, hlast, congrArg _ hrun⟩
    | error message => exact ⟨_, hsteps.append .done, hdeadline, rfl⟩
    | cancel => exact ⟨_, hsteps.append .done, hdeadline, rfl⟩

/-- What is painted before the end is what the turns paint. -/
theorem paintings_run (s : Session) (events : List TimedEvent) :
    (s.run events).paintings =
      (s.turns events).filterMap Turn.painting? ++ (s.run events).final := by
  obtain ⟨s', -, -, hrun⟩ := s.run_eq events
  rw [hrun, Run.final_paintFirst, ← paintings_stop]
  rfl

theorem chunks_turns (s : Session) (events : List TimedEvent) :
    (s.turns events).filterMap Turn.arrival? = arrivals s.now s.reader events := by
  induction events generalizing s with
  | nil => exact s.arrivals_dueTurns 0
  | cons e rest ih =>
    unfold turns arrivals
    rw [List.filterMap_append, arrivals_dueTurns, List.nil_append]
    cases e.event with
    | text text => simp [ih, chunkTurn, Turn.arrival?, Turn.time]
    | bytes bs => simp [ih, chunkTurn, Turn.arrival?, Turn.time]
    | pause => simp [ih]
    | error message => rfl
    | cancel => rfl

end Session

end StreamedUi.Paint
