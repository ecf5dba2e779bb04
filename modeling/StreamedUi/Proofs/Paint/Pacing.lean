import StreamedUi.Proofs.Paint.Turns

/-! The pace of a stream's repaints. The deadline is set exactly while the painter has a repaint
pending, and is never more than a frame ahead (`Session.Sound`); each turn keeps this
(`Session.Step.sound`). So no repaint is lost (`Session.Steps.meets`), and since the time from which
the next one is due goes up by a frame with each repaint and never goes down
(`Session.Step.due_le`), repaints stand a frame apart. `Paced` says both of a run, and holds of
every run (`paintStream_paced`). -/

namespace StreamedUi.Paint

/-- What the surface shows after some turns. -/
def shown (turns : List Turn) : String :=
  ((turns.filterMap Turn.painting?).map Painting.html).getLastD ""

namespace Session

variable {s s' : Session} {turn : Turn} {turns front back : List Turn} {d n : Nat}
variable {text buffer : String} {painted : Option String}

/-! ## The deadline -/

/-- What holds of the deadline between turns. -/
structure Sound (s : Session) : Prop where
  /-- The deadline is set exactly while a repaint is pending. -/
  armed : s.deadline.isSome = s.painter.repaintPending
  ahead : ∀ d, s.deadline = some d → s.now ≤ d
  soon : ∀ d, s.deadline = some d → d ≤ s.now + s.frame

/-- When the next repaint comes at the earliest. -/
def due (s : Session) : Nat := s.deadline.getD (s.now + s.frame)

theorem due_mono {now : Nat} (hnow : s.now ≤ now) : s.due ≤ due { s with now } := by
  unfold due
  cases s.deadline with
  | none => exact Nat.add_le_add_right hnow _
  | some d => exact le_rfl

@[simp] theorem receive_empty (s : Session) : s.receive "" = s := rfl

@[simp] theorem buffer_receive (s : Session) (text : String) :
    (s.receive text).painter.buffer = s.painter.buffer ++ text := by
  unfold receive
  split
  case isTrue h => rw [String.isEmpty_iff.1 h, String.append_empty]
  case isFalse => rfl

@[simp] theorem lastPainted_receive (s : Session) (text : String) :
    (s.receive text).painter.lastPainted = s.painter.lastPainted := by
  unfold receive
  split <;> rfl

namespace Sound

theorem start (frame : Nat) : ({ frame } : Session).Sound where
  armed := rfl
  ahead := nofun
  soon := nofun

theorem wait (H : s.Sound) {now : Nat} (hnow : s.now ≤ now)
    (hdeadline : ∀ d, s.deadline = some d → now < d) : Sound { s with now } where
  armed := H.armed
  ahead d hd := (hdeadline d hd).le
  soon d hd := (H.soon d hd).trans (Nat.add_le_add_right hnow _)

/-- What the reader holds does not matter. -/
theorem read (H : s.Sound) (reader : Text.Utf8Reader) : Sound { s with reader } := { H with }

theorem due_bounds (H : s.Sound) : s.now ≤ s.due ∧ s.due ≤ s.now + s.frame := by
  unfold due
  cases hdeadline : s.deadline with
  | none => exact ⟨Nat.le_add_right _ _, le_rfl⟩
  | some d => exact ⟨H.ahead d hdeadline, H.soon d hdeadline⟩

/-- The first text after a repaint sets the deadline, and text that follows leaves it alone. -/
theorem receive_eq (H : s.Sound) (htext : text ≠ "") :
    s.receive text = { s with painter := (s.painter.push text).1, deadline := some s.due } := by
  unfold receive due Painter.push
  rw [if_neg (by rwa [String.isEmpty_iff]), ← H.armed]
  cases hdeadline : s.deadline <;> rfl

theorem receive (H : s.Sound) (text : String) : (s.receive text).Sound := by
  by_cases htext : text = ""
  · rwa [htext, receive_empty]
  rw [H.receive_eq htext]
  exact {
    armed := rfl
    ahead := by
      rintro _ ⟨⟩
      exact H.due_bounds.1
    soon := by
      rintro _ ⟨⟩
      exact H.due_bounds.2 }

theorem deadline_receive (H : s.Sound) (text : String) (hdeadline : s.deadline = some d) :
    (s.receive text).deadline = some d := by
  by_cases htext : text = ""
  · rwa [htext, receive_empty]
  rw [H.receive_eq htext, due, hdeadline]
  rfl

/-- Text, if there is any, leaves the time of the next repaint as it is. -/
theorem due_receive (H : s.Sound) (text : String) : (s.receive text).due = s.due := by
  by_cases htext : text = ""
  · rw [htext, receive_empty]
  rw [H.receive_eq htext]
  rfl

end Sound

/-! ## What a turn does -/

namespace Step

theorem sound (H : s.Sound) (h : s.Step turn) : turn.session.Sound := by
  cases h with
  | repaint hdeadline => exact ⟨s.painter.repaintPending_flush.symm, nofun, nofun⟩
  | chunk reader text => exact (H.read reader).receive text

theorem frame_eq (h : s.Step turn) : turn.session.frame = s.frame := by
  cases h with
  | repaint => rfl
  | chunk reader text => exact frame_receive _ _

theorem buffer_eq (h : s.Step turn) :
    turn.session.painter.buffer = s.painter.buffer ++ turn.text := by
  cases h with
  | repaint => exact s.painter.buffer_flush.trans (String.append_empty ..).symm
  | chunk reader text => exact buffer_receive { s with reader } text

theorem due_eq (h : s.Step turn) (hrepaints : turn.Repaints) :
    turn.time = s.due ∧ turn.session.due = turn.time + s.frame := by
  obtain ⟨buffer, painted, hact⟩ := hrepaints
  cases h with
  | repaint hdeadline =>
    rw [due, hdeadline]
    exact ⟨rfl, rfl⟩
  | chunk => cases hact

theorem exists_deadline (H : s.Sound) (h : s.Step turn) (hact : turn.act = .chunk text)
    (htext : text ≠ "") : ∃ d, turn.session.deadline = some d := by
  cases h with
  | repaint => cases hact
  | chunk reader text =>
    cases hact
    exact ⟨_, congrArg deadline ((H.read reader).receive_eq htext)⟩

theorem meets (H : s.Sound) (h : s.Step turn) (hdeadline : s.deadline = some d) :
    turn.Repaints ∧ turn.time = d ∨ turn.session.deadline = some d := by
  cases h with
  | repaint hdeadline' =>
    rw [hdeadline] at hdeadline'
    cases hdeadline'
    exact .inl ⟨⟨_, _, rfl⟩, rfl⟩
  | chunk reader text => exact .inr ((H.read reader).deadline_receive text hdeadline)

theorem due_le (H : s.Sound) (h : s.Step turn) : s.due ≤ turn.session.due := by
  cases h with
  | @repaint d hdeadline =>
    rw [due, hdeadline]
    exact Nat.le_add_right d s.frame
  | chunk reader text => exact ((H.read reader).due_receive text).ge

theorem lastPainted_eq (h : s.Step turn) :
    turn.session.painter.lastPainted =
      (turn.painting?.map Painting.html).getD s.painter.lastPainted := by
  cases h with
  | repaint =>
    refine s.painter.lastPainted_flush.trans ?_
    rw [repaintTurn, Turn.painting?]
    cases s.painter.flush.2 <;> rfl
  | chunk reader text => exact lastPainted_receive { s with reader } text

end Step

/-! ## What many turns do -/

namespace Steps

theorem sound (H : s.Sound) (h : s.Steps turns s') :
    s'.Sound ∧ ∀ turn ∈ turns, turn.session.Sound := by
  induction h with
  | done => exact ⟨H, nofun⟩
  | wait hnow hdeadline _ ih => exact ih (H.wait hnow hdeadline)
  | turn hstep _ ih =>
    have H' := hstep.sound H
    exact ⟨(ih H').1, List.forall_mem_cons.2 ⟨H', (ih H').2⟩⟩

theorem frame_eq (h : s.Steps turns s') : s'.frame = s.frame := by
  induction h with
  | done => rfl
  | wait _ _ _ ih => exact ih
  | turn hstep _ ih => exact ih.trans hstep.frame_eq

/-- All text is in the buffer. -/
theorem buffer_eq (h : s.Steps turns s') :
    s'.painter.buffer = s.painter.buffer ++ String.join (turns.map Turn.text) := by
  induction h with
  | done => simp
  | wait _ _ _ ih => exact ih
  | turn hstep _ ih =>
    rw [ih, hstep.buffer_eq, List.map_cons, String.join_cons, String.append_assoc]

theorem lastPainted_eq (h : s.Steps turns s') :
    s'.painter.lastPainted =
      ((turns.filterMap Turn.painting?).map Painting.html).getLastD s.painter.lastPainted := by
  induction h with
  | done => rfl
  | wait _ _ _ ih => exact ih
  | @turn s turn turns s' hstep _ ih =>
    rw [ih, hstep.lastPainted_eq]
    cases hpainting : turn.painting? with
    | none => rw [List.filterMap_cons_none hpainting]; rfl
    | some p =>
      rw [List.filterMap_cons_some hpainting, List.map_cons, List.getLastD_cons]
      rfl

/-- A repaint that is pending comes when it is due, or is pending still. -/
theorem meets (H : s.Sound) (h : s.Steps turns s') (hdeadline : s.deadline = some d) :
    (∃ turn ∈ turns, turn.Repaints ∧ turn.time = d) ∨ s'.deadline = some d := by
  induction h with
  | done => exact .inr hdeadline
  | wait hnow hbefore _ ih => exact ih (H.wait hnow hbefore) hdeadline
  | @turn s turn turns s' hstep _ ih =>
    obtain hturn | hkept := hstep.meets H hdeadline
    · exact .inl ⟨turn, List.mem_cons_self, hturn⟩
    · refine (ih (hstep.sound H) hkept).imp_left ?_
      rintro ⟨later, hlater, hmeets⟩
      exact ⟨later, List.mem_cons_of_mem _ hlater, hmeets⟩

/-- A repaint follows text within a frame, or is still to come. -/
theorem meets_text (H : s.Sound) (h : s.Steps (front ++ turn :: back) s')
    (hact : turn.act = .chunk text) (htext : text ≠ "") :
    (∃ later ∈ back, later.Repaints ∧ turn.time ≤ later.time ∧
      later.time ≤ turn.time + s.frame) ∨
    ∃ d, s'.deadline = some d ∧ d ≤ turn.time + s.frame := by
  obtain ⟨mid, hfront, hstep, hback⟩ := h.split
  have Hmid := (hfront.sound H).1
  have Hturn := hstep.sound Hmid
  obtain ⟨d, hdeadline⟩ := hstep.exists_deadline Hmid hact htext
  have hsoon := Hturn.soon d hdeadline
  rw [hstep.frame_eq, hfront.frame_eq] at hsoon
  obtain ⟨later, hlater, hrepaints, rfl⟩ | hpending := hback.meets Hturn hdeadline
  · exact .inl ⟨later, hlater, hrepaints, Hturn.ahead _ hdeadline, hsoon⟩
  · exact .inr ⟨d, hpending, hsoon⟩

/-- From the start, a repaint has all the text that has come before it. -/
theorem whole (h : Steps { frame := n } (front ++ turn :: back) s')
    (hact : turn.act = .repaint buffer painted) :
    buffer = String.join (front.map Turn.text) ∧
      (∀ html, painted = some html → html = safePrefix buffer) ∧
      (safePrefix buffer ≠ "" → shown (front ++ [turn]) = safePrefix buffer) := by
  obtain ⟨mid, hfront, hstep, -⟩ := h.split
  have hshown := (hfront.append (.turn hstep .done)).lastPainted_eq
  cases hstep with
  | chunk => cases hact
  | repaint =>
    cases hact
    refine ⟨?_, fun html => Painter.eq_safePrefix_of_flush, fun hsafe => ?_⟩
    · exact hfront.buffer_eq.trans String.empty_append
    · exact hshown.symm.trans (Painter.flush_shows hsafe)

theorem due_le (H : s.Sound) (h : s.Steps turns s') :
    ∀ turn ∈ turns, turn.Repaints → s.due ≤ turn.time := by
  induction h with
  | done => exact nofun
  | wait hnow hdeadline _ ih =>
    intro turn hturn hrepaints
    exact (due_mono hnow).trans (ih (H.wait hnow hdeadline) turn hturn hrepaints)
  | turn hstep _ ih =>
    refine List.forall_mem_cons.2 ⟨fun hrepaints => (hstep.due_eq hrepaints).1.ge, ?_⟩
    intro turn hturn hrepaints
    exact (hstep.due_le H).trans (ih (hstep.sound H) turn hturn hrepaints)

/-- Repaints stand a frame apart. -/
theorem spaced (H : s.Sound) (h : s.Steps turns s') :
    turns.Pairwise fun turn turn' =>
      turn.Repaints → turn'.Repaints → turn.time + s.frame ≤ turn'.time := by
  induction h with
  | done => exact .nil
  | wait hnow hdeadline _ ih => exact ih (H.wait hnow hdeadline)
  | turn hstep hrest ih =>
    have H' := hstep.sound H
    rw [← hstep.frame_eq]
    refine .cons ?_ (ih H')
    intro turn' hturn' hrepaints hrepaints'
    rw [hstep.frame_eq, ← (hstep.due_eq hrepaints).2]
    exact hrest.due_le H' turn' hturn' hrepaints'

/-- From where no repaint is pending, none comes sooner than a frame after the first text. -/
theorem delayed (H : s.Sound) (h : s.Steps turns s') (hdeadline : s.deadline = none) :
    ∀ turn ∈ turns, turn.Repaints →
      ∃ first, (turns.filterMap Turn.arrival?).find? (·.text ≠ "") = some first ∧
        first.time + s.frame ≤ turn.time := by
  induction h with
  | done => exact nofun
  | wait hnow hbefore _ ih => exact ih (H.wait hnow hbefore) hdeadline
  | @turn s turn turns s' hstep hrest ih =>
    have H' := hstep.sound H
    cases hstep with
    | repaint hdeadline' =>
      rw [hdeadline] at hdeadline'
      cases hdeadline'
    | chunk reader text =>
      refine List.forall_mem_cons.2 ⟨nofun, ?_⟩
      by_cases htext : text = ""
      -- The stream is as it was, and the chunk is none that counts.
      · subst htext
        exact ih H' hdeadline
      · intro later hlater hrepaints
        refine ⟨⟨(s.chunkTurn reader text).time, text⟩, ?_, ?_⟩
        · exact List.find?_cons_of_pos (decide_eq_true htext)
        · refine le_trans ?_ (hrest.due_le H' later hlater hrepaints)
          refine le_trans ?_ ((H.read reader).due_receive text).ge
          rw [due, hdeadline]
          exact (congrArg (· + s.frame) (now_receive { s with reader } text)).le

end Steps

end Session

/-! ## Runs -/

/-- No repaint is lost, and there is at most one in a frame. -/
structure Paced (frame : Nat) (turns : List Turn) (r : Run) : Prop where
  /-- Whenever a turn begins, the deadline is set exactly if a repaint is pending. -/
  armed : ∀ s ∈ ({ frame } : Session) :: turns.map Turn.session,
    s.deadline.isSome = s.painter.repaintPending
  /-- A repaint follows text within a frame, or else the stream is over by then. -/
  meets : ∀ front turn back text, turns = front ++ turn :: back → turn.act = .chunk text →
    text ≠ "" →
    (∃ later ∈ back, later.Repaints ∧ turn.time ≤ later.time ∧ later.time ≤ turn.time + frame) ∨
      r.elapsed < turn.time + frame
  /-- A repaint sees all the text that has come, and then its safe prefix is what is shown. -/
  whole : ∀ front turn back buffer painted, turns = front ++ turn :: back →
    turn.act = .repaint buffer painted →
    buffer = String.join (front.map Turn.text) ∧
      (∀ html, painted = some html → html = safePrefix buffer) ∧
      (safePrefix buffer ≠ "" → shown (front ++ [turn]) = safePrefix buffer)
  /-- Paintings before the end stand a frame apart. -/
  spaced : (turns.filterMap Turn.painting?).Pairwise fun p p' => p.time + frame ≤ p'.time
  /-- The first one does not come within a frame of the first text. -/
  delayed : ∀ p ∈ turns.filterMap Turn.painting?,
    ∃ first, (turns.filterMap Turn.arrival?).find? (·.text ≠ "") = some first ∧
      first.time + frame ≤ p.time

theorem Turn.repaints_of_painting? {turn : Turn} {p : Painting} (h : turn.painting? = some p) :
    turn.Repaints ∧ p.time = turn.time := by
  unfold painting? at h
  split at h
  case h_1 buffer painted hact =>
    obtain ⟨html, -, rfl⟩ := Option.map_eq_some_iff.1 h
    exact ⟨⟨buffer, painted, hact⟩, rfl⟩
  case h_2 => cases h

theorem paced_turns (frame : Nat) (events : List TimedEvent) :
    Paced frame (Session.turns { frame } events) (Session.run { frame } events) := by
  have H := Session.Sound.start frame
  obtain ⟨s', hsteps, hlast, hrun⟩ := Session.run_eq { frame } events
  refine ⟨?_, ?_, ?_, ?_, ?_⟩
  · refine List.forall_mem_cons.2 ⟨H.armed, List.forall_mem_map.2 fun turn hturn => ?_⟩
    exact ((hsteps.sound H).2 turn hturn).armed
  · intro front turn back text hturns hact htext
    rw [hturns] at hsteps
    refine (hsteps.meets_text H hact htext).imp_right ?_
    rintro ⟨d, hpending, hsoon⟩
    rw [hrun]
    exact (s'.elapsed_stop events).trans_lt ((hlast d hpending).trans_le hsoon)
  · intro front turn back buffer painted hturns hact
    rw [hturns] at hsteps
    exact hsteps.whole hact
  · refine List.pairwise_filterMap.2 ((hsteps.spaced H).imp ?_)
    intro turn turn' hspaced p hp p' hp'
    obtain ⟨hrepaints, htime⟩ := Turn.repaints_of_painting? hp
    obtain ⟨hrepaints', htime'⟩ := Turn.repaints_of_painting? hp'
    rw [htime, htime']
    exact hspaced hrepaints hrepaints'
  · intro p hp
    obtain ⟨turn, hturn, hp⟩ := List.mem_filterMap.1 hp
    obtain ⟨hrepaints, htime⟩ := Turn.repaints_of_painting? hp
    rw [htime]
    exact hsteps.delayed H rfl turn hturn hrepaints

/-- A stream goes through turns, which take its chunks as they come and paint what is painted before
its end. Text is followed by a repaint within a frame, unless the stream is over sooner, and
paintings before the end stand a frame apart. -/
theorem paintStream_paced (frame : Nat) (events : List TimedEvent) :
    let r := paintStream frame false events
    let turns := Session.turns { frame } events
    (∃ s', Session.Steps { frame } turns s' ∧
      r = Session.Run.paintFirst (turns.filterMap Turn.painting?) (s'.stop events)) ∧
    r.paintings = turns.filterMap Turn.painting? ++ r.final ∧
    turns.filterMap Turn.arrival? = arrivals 0 {} events ∧
    Paced frame turns r := by
  obtain ⟨s', hsteps, -, hrun⟩ := Session.run_eq { frame } events
  exact ⟨⟨s', hsteps, hrun⟩, Session.paintings_run { frame } events,
    Session.chunks_turns { frame } events, paced_turns frame events⟩

example :
    let r := paintStream 16 false
      [⟨0, .text "<p>a</p>"⟩, ⟨5, .text "<p>b</p>"⟩, ⟨30, .text "<p>c</p>"⟩, ⟨5, .text "<p>d"⟩]
    r.paintings = [⟨16, "<p>a</p><p>b</p>"⟩, ⟨40, "<p>a</p><p>b</p><p>c</p><p>d"⟩] := by
  decide +kernel

end StreamedUi.Paint
