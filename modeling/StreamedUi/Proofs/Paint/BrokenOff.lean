import StreamedUi.Proofs.Paint.Reading

/-! Streams that an error or a cancellation breaks off. What comes before is read through turns of
its own, and whatever follows runs on from there (`Session.Reads`, `Session.exists_reads`). So the
break ends the stream where it is: only a repaint that is due by then still comes first
(`Session.run_breakOff`). `BrokenOff` says what such a run is, and it is the same run whatever comes
after the break (`paintStream_brokenOff`). -/

namespace StreamedUi.Paint

/-- How an event ends the stream, if it breaks it off. -/
def Event.breakOff? : Event → Option Outcome
  | .text _ | .bytes _ | .pause => none
  | .error message => some (.failed message)
  | .cancel => some .cancelled

theorem unbroken_iff {events : List TimedEvent} :
    Unbroken events ↔ ∀ e ∈ events, e.event.breakOff? = none := by
  refine forall₂_congr fun e _ => ?_
  cases e.event <;> simp [Event.breakOff?]

/-- Events that do not leave a stream alone have a first one that breaks it off. -/
theorem exists_first_breakOff {events : List TimedEvent} (h : ¬ Unbroken events) :
    ∃ before e after outcome, events = before ++ e :: after ∧ Unbroken before ∧
      e.event.breakOff? = some outcome := by
  induction events with
  | nil => exact absurd (fun _ => nofun) h
  | cons e rest ih =>
    cases hbreak : e.event.breakOff? with
    | some outcome => exact ⟨[], e, rest, outcome, rfl, fun _ => nofun, hbreak⟩
    | none =>
      have hrest : ¬ Unbroken rest := by
        intro hrest
        exact h (unbroken_iff.2 (List.forall_mem_cons.2 ⟨hbreak, unbroken_iff.1 hrest⟩))
      obtain ⟨before, e', after, outcome, rfl, hbefore, hbreak'⟩ := ih hrest
      refine ⟨e :: before, e', after, outcome, rfl, ?_, hbreak'⟩
      exact unbroken_iff.2 (List.forall_mem_cons.2 ⟨hbreak, unbroken_iff.1 hbefore⟩)

namespace Session

variable {s s' : Session} {turn : Turn} {turns : List Turn} {before after : List TimedEvent}

/-! ## The times of turns -/

theorem Step.now_le (H : s.Sound) (h : s.Step turn) : s.now ≤ turn.time := by
  cases h with
  | repaint hdeadline => exact H.ahead _ hdeadline
  | chunk reader text => exact (now_receive { s with reader } text).ge

/-- Time does not go back. -/
theorem Steps.time_le (H : s.Sound) (h : s.Steps turns s') :
    s.now ≤ s'.now ∧ ∀ turn ∈ turns, turn.time ≤ s'.now := by
  induction h with
  | done => exact ⟨le_rfl, nofun⟩
  | wait hnow hdeadline _ ih =>
    obtain ⟨hle, htimes⟩ := ih (H.wait hnow hdeadline)
    exact ⟨hnow.trans hle, htimes⟩
  | turn hstep _ ih =>
    obtain ⟨hle, htimes⟩ := ih (hstep.sound H)
    exact ⟨(hstep.now_le H).trans hle, List.forall_mem_cons.2 ⟨hle, htimes⟩⟩

/-! ## Waiting instead -/

/-- A stream that has waited has nothing more to do when it ends. -/
theorem pause_end (s : Session) (wait : Nat) :
    s.turns [⟨wait, .pause⟩] = s.dueTurns wait ∧
      s.run [⟨wait, .pause⟩] = Run.paintFirst ((s.dueTurns wait).filterMap Turn.painting?)
        (s.advance wait).1.finish := by
  have hdeadline := (s.steps_advance wait).2
  let s' := (s.advance wait).1
  rw [← paintings_advance]
  change s.dueTurns wait ++ s'.dueTurns 0 = _ ∧
    Run.paintFirst _ (Run.paintFirst (s'.advance 0).2 (s'.advance 0).1.finish) = _
  rcases s'.advance_cases 0 with ⟨d, hd, hdue, -⟩ | ⟨-, hturns, hadvance⟩
  · exact absurd (hdeadline d hd) (not_lt.2 hdue)
  · rw [hturns, hadvance, List.append_nil]
    exact ⟨rfl, rfl⟩

theorem finish_eq (s : Session) :
    ∃ text, s.finish = ⟨.completed text, [⟨s.now, text⟩], s.now, []⟩ :=
  ⟨_, rfl⟩

/-! ## The break -/

/-- The stream stops where it is when it is broken off, after the repaint that is due by then. -/
theorem run_breakOff (s : Session) {e : TimedEvent} {outcome : Outcome}
    (he : e.event.breakOff? = some outcome) :
    ∃ notices, ∀ after, s.run (e :: after) =
      Run.paintFirst ((s.dueTurns e.after).filterMap Turn.painting?)
        ⟨outcome, [], s.now + e.after, notices⟩ := by
  simp only [← paintings_advance, ← now_advance]
  obtain ⟨time, event⟩ := e
  cases event with
  | text | bytes | pause => cases he
  | error message =>
    cases he
    exact ⟨_, fun _ => rfl⟩
  | cancel =>
    cases he
    exact ⟨_, fun _ => rfl⟩

/-- All that the turns paint is painted by the time they lead to. -/
theorem Steps.painting_time_le (H : s.Sound) (h : s.Steps turns s') :
    ∀ p ∈ turns.filterMap Turn.painting?, p.time ≤ s'.now := by
  intro p hp
  obtain ⟨turn, hturn, hp⟩ := List.mem_filterMap.1 hp
  rw [(Turn.repaints_of_painting? hp).2]
  exact (h.time_le H).2 turn hturn

/-- Of what is painted in a longer time, what is due in a shorter one. -/
theorem filter_dueTurns (H : s.Sound) {wait longer : Nat} (hlonger : wait ≤ longer) :
    ((s.dueTurns longer).filterMap Turn.painting?).filter (·.time ≤ s.now + wait) =
      (s.dueTurns wait).filterMap Turn.painting? := by
  rcases s.advance_cases wait with ⟨d, hdeadline, hd, hturns, -⟩ | ⟨hd, hturns, -⟩
  · have hlonger : s.dueTurns longer = s.dueTurns wait := by
      have : d ≤ s.now + longer := by omega
      simp [dueTurns, hdeadline, hd, this]
    have htimes := (s.steps_advance wait).1.painting_time_le H
    rw [now_advance] at htimes
    rw [hlonger]
    exact List.filter_eq_self.2 fun p hp => decide_eq_true (htimes p hp)
  · rw [hturns]
    refine List.filter_eq_nil_iff.2 fun p hp => ?_
    obtain ⟨turn, hturn, hp⟩ := List.mem_filterMap.1 hp
    rw [(Turn.repaints_of_painting? hp).2, decide_eq_true_eq, not_le]
    rcases s.advance_cases longer with ⟨d, hdeadline, -, hturns, -⟩ | ⟨-, hturns, -⟩
    · rw [hturns, List.mem_singleton] at hturn
      exact hturn ▸ hd d hdeadline
    · rw [hturns] at hturn
      cases hturn

end Session

/-! ## Runs -/

/-- What is painted before the end. -/
def repaintings (frame : Nat) (events : List TimedEvent) : List Painting :=
  (Session.turns { frame } events).filterMap Turn.painting?

/-- A stream is broken off some time after the events that come before. -/
structure BrokenOff (frame : Nat) (before : List TimedEvent) (wait : Nat) (outcome : Outcome)
    (r : Run) : Prop where
  outcome : r.outcome = outcome
  elapsed : r.elapsed = duration before + wait
  /-- It goes through the turns that it has if the time just passes, with the chunks that come
  before, and no repaint is left that is due by then. -/
  turns : ∃ turns s', turns = Session.turns { frame } (before ++ [⟨wait, .pause⟩]) ∧
    Session.Steps { frame } turns s' ∧ s'.now = r.elapsed ∧
    (∀ d, s'.deadline = some d → r.elapsed < d) ∧
    turns.filterMap Turn.arrival? = arrivals 0 {} before ∧
    r.paintings = turns.filterMap Turn.painting?
  /-- However long the chunks are given, all that is painted is what they paint by then. -/
  paintings : ∀ longer, wait ≤ longer →
    r.paintings = (repaintings frame (before ++ [⟨longer, .pause⟩])).filter (·.time ≤ r.elapsed)
  /-- If the stream ended instead, the whole text would be painted as well. -/
  final : ∃ text, paintStream frame false (before ++ [⟨wait, .pause⟩]) =
    ⟨.completed text, r.paintings ++ [⟨r.elapsed, text⟩], r.elapsed, []⟩

variable {frame : Nat} {before : List TimedEvent} {e : TimedEvent} {outcome : Outcome}

theorem exists_brokenOff (frame : Nat) (hbefore : Unbroken before)
    (he : e.event.breakOff? = some outcome) :
    ∃ r, BrokenOff frame before e.after outcome r ∧
      ∀ after, paintStream frame false (before ++ e :: after) = r := by
  obtain ⟨front, s, hreads⟩ := Session.exists_reads { frame } hbefore
  have H := (hreads.steps.sound (.start frame)).1
  have hnow : s.now = duration before := hreads.now_eq.trans (Nat.zero_add _)
  have hwait (wait : Nat) : Session.turns { frame } (before ++ [⟨wait, .pause⟩]) =
      front ++ s.dueTurns wait := by
    rw [hreads.turns_append, (s.pause_end wait).1]
  let paintings := (front ++ s.dueTurns e.after).filterMap Turn.painting?
  obtain ⟨notices, hbreak⟩ := s.run_breakOff he
  refine ⟨⟨outcome, paintings, s.now + e.after, notices⟩, ?_, fun after => ?_⟩
  · refine ⟨rfl, congrArg (· + e.after) hnow, ?turns, ?paintings, ?final⟩
    case turns =>
      obtain ⟨hsteps, hdeadline⟩ := s.steps_advance e.after
      have hlast := s.now_advance e.after
      refine ⟨_, _, (hwait e.after).symm, hreads.steps.append hsteps, hlast, ?_, ?_, rfl⟩
      · exact fun d hd => hlast.ge.trans_lt (hdeadline d hd)
      · have harrivals := hreads.arrivals_append []
        rw [List.append_nil] at harrivals
        rw [List.filterMap_append, Session.arrivals_dueTurns, harrivals]
        rfl
    case paintings =>
      intro longer hlonger
      have hfront : ∀ p ∈ front.filterMap Turn.painting?, p.time ≤ s.now + e.after := by
        intro p hp
        exact (hreads.steps.painting_time_le (.start frame) p hp).trans (Nat.le_add_right _ _)
      rw [repaintings, hwait, List.filterMap_append, List.filter_append,
        s.filter_dueTurns H hlonger, List.filter_eq_self.2 fun p hp => decide_eq_true (hfront p hp)]
      exact List.filterMap_append
    case final =>
      obtain ⟨text, htext⟩ := (s.advance e.after).1.finish_eq
      refine ⟨text, (hreads.run_append _).trans ?_⟩
      rw [(s.pause_end e.after).2, Session.Run.paintFirst_paintFirst, ← List.filterMap_append,
        htext, Session.now_advance]
      rfl
  · refine (hreads.run_append _).trans ?_
    rw [hbreak, Session.Run.paintFirst_paintFirst, ← List.filterMap_append, Session.Run.paintFirst,
      List.append_nil]

/-- The first error or cancellation breaks the stream off then and there: what comes after it makes
no difference. A stream that is cancelled beforehand is as one that is cancelled right away. -/
theorem paintStream_brokenOff (frame : Nat) {events : List TimedEvent} (h : ¬ Unbroken events) :
    (∃ before e after outcome, events = before ++ e :: after ∧ Unbroken before ∧
      e.event.breakOff? = some outcome ∧
      BrokenOff frame before e.after outcome (paintStream frame false events) ∧
      ∀ events', before ++ [e] <+: events' →
        paintStream frame false events' = paintStream frame false events) ∧
    ∀ events', (paintStream frame true events').paintings = [] ∧
      BrokenOff frame [] 0 .cancelled (paintStream frame true events') ∧
      paintStream frame true events' = paintStream frame true events := by
  constructor
  · obtain ⟨before, e, after, outcome, rfl, hbefore, he⟩ := exists_first_breakOff h
    obtain ⟨r, hr, hrun⟩ := exists_brokenOff frame hbefore he
    refine ⟨before, e, after, outcome, rfl, hbefore, he, (hrun after).symm ▸ hr, ?_⟩
    rintro _ ⟨after', rfl⟩
    rw [List.append_assoc, List.singleton_append, hrun, hrun]
  · intro events'
    have hnone : Unbroken [] := nofun
    obtain ⟨r, hr, hrun⟩ := exists_brokenOff (e := ⟨0, .cancel⟩) frame hnone rfl
    have hcancelled : paintStream frame true events' = r := hrun []
    exact ⟨rfl, hcancelled.symm ▸ hr, rfl⟩

/-- A cancellation when the repaint is due, with half a character held back. -/
theorem paintStream_brokenOff_held :
    let events : List TimedEvent :=
      [⟨0, .text "<p>a</p>"⟩, ⟨5, .bytes [0xE2]⟩, ⟨11, .cancel⟩, ⟨0, .text "<p>b</p>"⟩]
    let r := paintStream 16 false events
    ¬ Unbroken events ∧ r.paintings = [⟨16, "<p>a</p>"⟩] ∧
      ∃ before e after, events = before ++ e :: after ∧
        BrokenOff 16 before e.after .cancelled r := by
  intro events r
  have h : ¬ Unbroken events := fun h => (h ⟨11, .cancel⟩ (by simp [events])).1 rfl
  obtain ⟨before, e, after, outcome, hevents, -, -, hr, -⟩ := (paintStream_brokenOff 16 h).1
  have houtcome : outcome = .cancelled := hr.outcome.symm.trans (by decide +kernel)
  exact ⟨h, by decide +kernel, before, e, after, hevents, houtcome ▸ hr⟩

end StreamedUi.Paint
