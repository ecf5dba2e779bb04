import StreamedUi.Proofs.Paint.Pacing

/-! Reading events that break nothing off. They lead a stream through turns of their own to a
stream from which whatever follows runs on, with all their text in its buffer or its reader
(`Session.Reads`, `Session.exists_reads`). So a run is known from where its last events begin. -/

namespace StreamedUi.Paint

/-- How long events take. -/
def duration : List TimedEvent → Nat
  | [] => 0
  | e :: rest => e.after + duration rest

/-- No error and no cancellation. -/
def Unbroken (events : List TimedEvent) : Prop :=
  ∀ e ∈ events, e.event ≠ .cancel ∧ ∀ message, e.event ≠ .error message

/-- The text that a reader settles of the chunks, and the reader after them. -/
def decoded (reader : Text.Utf8Reader) : List TimedEvent → Text.Utf8Reader × String
  | [] => (reader, "")
  | e :: rest =>
    match e.event with
    | .text text =>
      let (reader, more) := decoded reader rest
      (reader, text ++ more)
    | .bytes bs =>
      let (reader, text) := reader.push bs
      let (reader, more) := decoded reader rest
      (reader, text ++ more)
    | .pause | .error _ | .cancel => decoded reader rest

theorem duration_append (events events' : List TimedEvent) :
    duration (events ++ events') = duration events + duration events' := by
  induction events with
  | nil => exact (Nat.zero_add _).symm
  | cons e rest ih => rw [List.cons_append, duration, duration, ih, Nat.add_assoc]

theorem decoded_append (reader : Text.Utf8Reader) (events events' : List TimedEvent) :
    decoded reader (events ++ events') =
      ((decoded (decoded reader events).1 events').1,
        (decoded reader events).2 ++ (decoded (decoded reader events).1 events').2) := by
  induction events generalizing reader with
  | nil => simp [decoded]
  | cons e rest ih =>
    rw [List.cons_append, decoded, decoded]
    cases e.event with
    | text | bytes => simp [ih, String.append_assoc]
    | pause | error | cancel => exact ih reader

namespace Session

variable {s s' : Session} {before : List TimedEvent}

@[simp] theorem buffer_advance (s : Session) (after : Nat) :
    (s.advance after).1.painter.buffer = s.painter.buffer := by
  rcases s.advance_cases after with ⟨d, -, -, -, hadvance⟩ | ⟨-, -, hadvance⟩
  · rw [hadvance]
    exact s.painter.buffer_flush
  · rw [hadvance]

/-! ## Reading -/

/-- The stream reads the events through these turns, and what follows them runs on from there. -/
structure Reads (s : Session) (events : List TimedEvent) (turns : List Turn) (s' : Session) :
    Prop where
  steps : s.Steps turns s'
  now_eq : s'.now = s.now + duration events
  reader_eq : s'.reader = (decoded s.reader events).1
  buffer_eq : s'.painter.buffer = s.painter.buffer ++ (decoded s.reader events).2
  arrivals_append : ∀ rest, arrivals s.now s.reader (events ++ rest) =
    turns.filterMap Turn.arrival? ++ arrivals s'.now s'.reader rest
  turns_append : ∀ rest, s.turns (events ++ rest) = turns ++ s'.turns rest
  run_append : ∀ rest, s.run (events ++ rest) =
    Run.paintFirst (turns.filterMap Turn.painting?) (s'.run rest)

namespace Reads

theorem nil (s : Session) : s.Reads [] [] s where
  steps := .done
  now_eq := rfl
  reader_eq := rfl
  buffer_eq := String.append_empty.symm
  arrivals_append _ := rfl
  turns_append _ := rfl
  run_append _ := rfl

theorem append {events events' : List TimedEvent} {front back : List Turn} {mid : Session}
    (h : s.Reads events front mid) (h' : mid.Reads events' back s') :
    s.Reads (events ++ events') (front ++ back) s' where
  steps := h.steps.append h'.steps
  now_eq := by rw [h'.now_eq, h.now_eq, duration_append, Nat.add_assoc]
  reader_eq := by rw [h'.reader_eq, h.reader_eq, decoded_append]
  buffer_eq := by
    rw [h'.buffer_eq, h.buffer_eq, h.reader_eq, decoded_append, String.append_assoc]
  arrivals_append rest := by
    rw [List.append_assoc, h.arrivals_append, h'.arrivals_append, List.filterMap_append,
      List.append_assoc]
  turns_append rest := by
    rw [List.append_assoc, h.turns_append, h'.turns_append, List.append_assoc]
  run_append rest := by
    rw [List.append_assoc, h.run_append, h'.run_append, Run.paintFirst_paintFirst,
      List.filterMap_append]

/-- A stream that has been read to its end ends there. -/
theorem run_eq {events : List TimedEvent} {turns : List Turn} (h : s.Reads events turns s') :
    s.run events = Run.paintFirst (turns.filterMap Turn.painting?)
      (Run.paintFirst (s'.advance 0).2 (s'.advance 0).1.finish) := by
  have hrun := h.run_append []
  rwa [List.append_nil] at hrun

theorem text (s : Session) (after : Nat) (text : String) :
    let s' := (s.advance after).1
    s.Reads [⟨after, .text text⟩] (s.dueTurns after ++ [s'.chunkTurn s'.reader text])
      (s'.receive text) where
  steps := (s.steps_advance after).1.append (.turn (.chunk _ text) .done)
  now_eq := by simp [duration]
  reader_eq := by simp [decoded]
  buffer_eq := by simp [decoded]
  arrivals_append rest := by
    simp [arrivals, arrivals_dueTurns, chunkTurn, Turn.arrival?, Turn.time]
  turns_append rest := by
    rw [List.append_assoc]
    rfl
  run_append rest := by
    rw [List.filterMap_append, List.filterMap_cons_none rfl, List.filterMap_nil, List.append_nil,
      ← paintings_advance]
    rfl

theorem bytes (s : Session) (after : Nat) (bs : List UInt8) :
    let s' := (s.advance after).1
    let pushed := s'.reader.push bs
    s.Reads [⟨after, .bytes bs⟩] (s.dueTurns after ++ [s'.chunkTurn pushed.1 pushed.2])
      (s'.chunkTurn pushed.1 pushed.2).session where
  steps := (s.steps_advance after).1.append (.turn (.chunk _ _) .done)
  now_eq := by simp [chunkTurn, duration]
  reader_eq := by simp [chunkTurn, decoded]
  buffer_eq := by simp [chunkTurn, decoded]
  arrivals_append rest := by
    simp [arrivals, arrivals_dueTurns, chunkTurn, Turn.arrival?, Turn.time]
  turns_append rest := by
    rw [List.append_assoc]
    rfl
  run_append rest := by
    rw [List.filterMap_append, List.filterMap_cons_none rfl, List.filterMap_nil, List.append_nil,
      ← paintings_advance]
    rfl

theorem pause (s : Session) (after : Nat) :
    s.Reads [⟨after, .pause⟩] (s.dueTurns after) (s.advance after).1 where
  steps := (s.steps_advance after).1
  now_eq := s.now_advance after
  reader_eq := s.reader_advance after
  buffer_eq := (s.buffer_advance after).trans String.append_empty.symm
  arrivals_append rest := by
    rw [arrivals_dueTurns, now_advance, reader_advance]
    rfl
  turns_append _ := rfl
  run_append rest := by
    rw [← paintings_advance]
    rfl

end Reads

/-- Events that break nothing off are read, whatever comes after them. -/
theorem exists_reads (s : Session) (hbefore : Unbroken before) :
    ∃ turns s', s.Reads before turns s' := by
  induction before generalizing s with
  | nil => exact ⟨[], s, .nil s⟩
  | cons e before ih =>
    obtain ⟨⟨hcancel, herror⟩, hbefore⟩ := List.forall_mem_cons.1 hbefore
    suffices h : ∃ front mid, s.Reads [e] front mid by
      obtain ⟨front, mid, hfront⟩ := h
      obtain ⟨back, s', hback⟩ := ih mid hbefore
      exact ⟨front ++ back, s', hfront.append hback⟩
    obtain ⟨time, event⟩ := e
    cases event with
    | text text => exact ⟨_, _, .text s time text⟩
    | bytes bs => exact ⟨_, _, .bytes s time bs⟩
    | pause => exact ⟨_, _, .pause s time⟩
    | error message => exact absurd rfl (herror message)
    | cancel => exact absurd rfl hcancel

end Session

end StreamedUi.Paint
