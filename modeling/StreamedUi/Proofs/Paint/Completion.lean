import StreamedUi.Proofs.Paint.Reading
import StreamedUi.Proofs.Text.Lossy

/-! Streams that are read to their end. The outcome is all the text that was delivered, whatever the
times (`Session.outcome_run`). The turns of a run are calls of its painter
(`Session.Steps.showing`), so what is painted before the end shows ever more of that text. A stream
of text or of bytes completes with its whole text, and no run over the same content ends differently
(`paintStream_completes`). -/

namespace StreamedUi.Paint

/-! ## The content of a stream -/

/-- The events bring chunks of one kind, with pauses between them. -/
inductive Brings {α : Type} (chunk : α → Event) : List TimedEvent → List α → Prop
  | done : Brings chunk [] []
  | chunk (after : Nat) (c : α) {events cs} : Brings chunk events cs →
    Brings chunk (⟨after, chunk c⟩ :: events) (c :: cs)
  | pause (after : Nat) {events cs} : Brings chunk events cs →
    Brings chunk (⟨after, .pause⟩ :: events) cs

/-- The same text in other pieces, or the same bytes, at whatever times. -/
inductive SameContent (events events' : List TimedEvent) : Prop
  | text {texts texts' : List String} : Brings .text events texts → Brings .text events' texts' →
    String.join texts = String.join texts' → SameContent events events'
  | bytes {bytes bytes' : List (List UInt8)} : Brings .bytes events bytes →
    Brings .bytes events' bytes' → bytes.flatten = bytes'.flatten → SameContent events events'

namespace Brings

variable {events : List TimedEvent}

theorem unbroken {α : Type} {chunk : α → Event} {cs : List α} (h : Brings chunk events cs)
    (hchunk : ∀ c, chunk c ≠ .cancel ∧ ∀ message, chunk c ≠ .error message) :
    Unbroken events := by
  induction h with
  | done => exact nofun
  | chunk after c _ ih => exact List.forall_mem_cons.2 ⟨hchunk c, ih⟩
  | pause after _ ih => exact List.forall_mem_cons.2 ⟨⟨nofun, nofun⟩, ih⟩

theorem decoded_text {texts : List String} (h : Brings .text events texts)
    (reader : Text.Utf8Reader) : decoded reader events = (reader, String.join texts) := by
  induction h with
  | done => rfl
  | chunk after text _ ih => simp only [decoded, ih, String.join_cons]
  | pause after _ ih => exact ih

theorem decoded_bytes {bytes : List (List UInt8)} (h : Brings .bytes events bytes)
    (reader : Text.Utf8Reader) : decoded reader events = reader.pushAll bytes := by
  induction h generalizing reader with
  | done => rfl
  | chunk after bs _ ih => simp only [decoded, ih, Text.Utf8Reader.pushAll_cons]
  | pause after _ ih => exact ih reader

end Brings

/-! ## The outcome -/

namespace Session

variable {s s' : Session} {events : List TimedEvent} {turns : List Turn} {turn : Turn}

theorem outcome_finish (s : Session) :
    s.finish.outcome = .completed (s.painter.buffer ++ s.reader.finish.2) := by
  unfold finish
  dsimp only
  split
  case isTrue h => rw [String.isEmpty_iff.1 h, String.append_empty]; rfl
  case isFalse => rfl

theorem stop_of_unbroken (s : Session) (h : Unbroken events) : s.stop events = s.finish := by
  induction events with
  | nil => rfl
  | cons e rest ih =>
    obtain ⟨⟨hcancel, herror⟩, hrest⟩ := List.forall_mem_cons.1 h
    unfold stop
    cases hevent : e.event with
    | text | bytes | pause => exact ih hrest
    | error message => exact absurd hevent (herror message)
    | cancel => exact absurd hevent hcancel

/-- A stream that nothing breaks off ends with all the text of its chunks, and of the bytes that are
still held. -/
theorem outcome_run (s : Session) (h : Unbroken events) :
    (s.run events).outcome = .completed (s.painter.buffer ++ (decoded s.reader events).2 ++
      (decoded s.reader events).1.finish.2) := by
  obtain ⟨turns, s', hreads⟩ := s.exists_reads h
  rw [← hreads.buffer_eq, ← hreads.reader_eq, ← s'.buffer_advance 0, ← s'.reader_advance 0,
    hreads.run_eq]
  exact outcome_finish (s'.advance 0).1

theorem elapsed_run (s : Session) (h : Unbroken events) :
    (s.run events).elapsed = s.now + duration events := by
  obtain ⟨turns, s', hreads⟩ := s.exists_reads h
  rw [← hreads.now_eq, hreads.run_eq]
  exact s'.now_advance 0

end Session

/-! ## What is painted before the end -/

namespace Turn

/-- The calls of the painter that a turn makes: none for a chunk without text. -/
def calls (t : Turn) : List Painter.Call :=
  match t.act with
  | .repaint _ _ => [.flush]
  | .chunk text => if text = "" then [] else [.push text]

/-- The repaint that a turn makes, unless there is nothing to paint. -/
def repaint? (t : Turn) : Option Painter.Repaint :=
  match t.act with
  | .repaint buffer painted => painted.map (⟨·, buffer⟩)
  | .chunk _ => none

theorem html_painting? (t : Turn) :
    t.painting?.map Painting.html = t.repaint?.map Painter.Repaint.text := by
  unfold painting? repaint?
  cases t.act with
  | repaint buffer painted => simp [Function.comp_def]
  | chunk text => rfl

end Turn

namespace Session

variable {s s' : Session} {turns : List Turn} {turn : Turn} {events : List TimedEvent}

open Painter (Repaint Showing)

theorem Step.showing (h : s.Step turn) (repaints : List Repaint) :
    turn.calls.foldl Showing.call ⟨s.painter, repaints⟩ =
      ⟨turn.session.painter, repaints ++ turn.repaint?.toList⟩ := by
  cases h with
  | repaint hdeadline =>
    simp only [repaintTurn, Turn.calls, Turn.repaint?, List.foldl_cons, List.foldl_nil,
      Showing.call, Option.toList_map]
    rfl
  | chunk reader text =>
    unfold chunkTurn Turn.calls Turn.repaint? receive
    by_cases htext : text = ""
    · simp [htext]
    · simp [htext, Showing.call]

/-- The turns lead the painter where their calls do, and paint what these paint. -/
theorem Steps.showing (h : s.Steps turns s') (repaints : List Repaint) :
    (turns.flatMap Turn.calls).foldl Showing.call ⟨s.painter, repaints⟩ =
      ⟨s'.painter, repaints ++ turns.filterMap Turn.repaint?⟩ := by
  induction h generalizing repaints with
  | done => simp
  | wait _ _ _ ih => exact ih repaints
  | @turn s turn turns s' hstep _ ih =>
    rw [List.flatMap_cons, List.foldl_append, hstep.showing, ih, List.append_assoc]
    cases hrepaint : turn.repaint? with
    | none => rw [List.filterMap_cons_none hrepaint]; rfl
    | some r => rw [List.filterMap_cons_some hrepaint]; rfl

end Session

/-- The stream ends with the whole text, which is painted then. What is painted before shows ever
more of it. -/
structure Completes (r : Run) (duration : Nat) (text : String) : Prop where
  outcome : r.outcome = .completed text
  elapsed : r.elapsed = duration
  paintings : ∃ before, r.paintings = before ++ [⟨duration, text⟩] ∧
    before.Pairwise (fun p p' => p.html.toList <+: p'.html.toList ∧ p.html ≠ p'.html) ∧
    ∀ p ∈ before, p.html ≠ "" ∧ p.html.toList <+: text.toList

variable {frame : Nat} {events : List TimedEvent} {text : String}

theorem Completes.getLast?_paintings {r : Run} {duration : Nat} (h : Completes r duration text) :
    r.paintings.getLast?.map Painting.html = some text := by
  obtain ⟨before, hpaintings, -⟩ := h.paintings
  rw [hpaintings, List.getLast?_concat]
  rfl

/-- The paintings before the end are the repaints of a painter that has all the text but for what
is held back. -/
theorem completes_of_outcome (hunbroken : Unbroken events)
    (houtcome : (paintStream frame false events).outcome = .completed text) :
    Completes (paintStream frame false events) (duration events) text := by
  obtain ⟨s', hsteps, -, hrun⟩ := Session.run_eq { frame } events
  let turns := Session.turns { frame } events
  have helapsed : (paintStream frame false events).elapsed = duration events :=
    (Session.elapsed_run { frame } hunbroken).trans (Nat.zero_add _)
  have hpaintings := Session.paintings_run { frame } events
  have hfinal : (Session.run { frame } events).final = [⟨duration events, text⟩] := by
    change Run.final (paintStream frame false events) = _
    rw [Run.final, houtcome, helapsed]
  have hbuffer : s'.painter.buffer.toList <+: text.toList := by
    have hlast := houtcome
    change (Session.run { frame } events).outcome = _ at hlast
    rw [hrun, s'.stop_of_unbroken hunbroken] at hlast
    cases s'.outcome_finish.symm.trans hlast
    rw [String.toList_append]
    exact List.prefix_append _ _
  have hvalid : Painter.Showing.Valid ⟨s'.painter, turns.filterMap Turn.repaint?⟩ := by
    have hshowing := hsteps.showing []
    rw [List.nil_append] at hshowing
    exact hshowing ▸ Painter.Showing.run_valid (turns.flatMap Turn.calls)
  -- A painting is the text of a repaint.
  have hhtml : (turns.filterMap Turn.painting?).map Painting.html =
      (turns.filterMap Turn.repaint?).map Painter.Repaint.text := by
    simp only [List.map_filterMap, Turn.html_painting?]
  refine ⟨houtcome, helapsed, turns.filterMap Turn.painting?, ?_, ?_, ?_⟩
  · exact hpaintings.trans (congrArg _ hfinal)
  · have hincreasing : ((turns.filterMap Turn.repaint?).map Painter.Repaint.text).Pairwise
        fun html html' => html.toList <+: html'.toList ∧ html ≠ html' :=
      List.pairwise_map.2 hvalid.increasing
    exact List.pairwise_map.1 (hhtml ▸ hincreasing)
  · intro p hp
    have hmem := List.mem_map_of_mem (f := Painting.html) hp
    rw [hhtml] at hmem
    obtain ⟨r, hr, hrtext⟩ := List.mem_map.1 hmem
    have hends := hvalid.ends r hr
    rw [← hrtext]
    refine ⟨fun hempty => hends.ne_nil (String.toList_eq_nil_iff.2 hempty), ?_⟩
    exact hends.text_le.trans ((hvalid.buffer r hr).trans hbuffer)

theorem Brings.completes_text {texts : List String} (h : Brings .text events texts)
    (frame : Nat) :
    Completes (paintStream frame false events) (duration events) (String.join texts) := by
  have hunbroken := h.unbroken fun _ => ⟨nofun, nofun⟩
  refine completes_of_outcome hunbroken ((Session.outcome_run { frame } hunbroken).trans ?_)
  have hfinish : (Text.Utf8Reader.finish {}).2 = "" := Text.Utf8Reader.finish_empty
  rw [h.decoded_text, hfinish, String.empty_append, String.append_empty]

theorem Brings.completes_bytes {bytes : List (List UInt8)} (h : Brings .bytes events bytes)
    (hlossy : Text.Lossy bytes.flatten text.toList) (frame : Nat) :
    Completes (paintStream frame false events) (duration events) text := by
  have hunbroken := h.unbroken fun _ => ⟨nofun, nofun⟩
  refine completes_of_outcome hunbroken ((Session.outcome_run { frame } hunbroken).trans ?_)
  have hall : Text.Utf8Reader.pushAll {} bytes = Text.Utf8Reader.push {} bytes.flatten :=
    Text.Utf8Reader.Valid.empty.pushAll_eq bytes
  rw [h.decoded_bytes, hall, String.empty_append]
  exact congrArg _ (String.toList_inj.1 ((Text.Utf8Reader.lossy_push bytes.flatten).unique hlossy))

/-- Whatever the times, a stream of text completes with all of it and a stream of bytes with their
one lossy decoding, and runs over the same content end with the same outcome and the same last
painting. -/
theorem paintStream_completes (frame : Nat) (events : List TimedEvent) :
    let r := paintStream frame false events
    (∀ texts, Brings .text events texts → Completes r (duration events) (String.join texts)) ∧
    (∀ bytes, Brings .bytes events bytes →
      ∃ text : String, (∀ cs, Text.Lossy bytes.flatten cs ↔ cs = text.toList) ∧
        Completes r (duration events) text) ∧
    ∀ frame' events', SameContent events events' →
      let r' := paintStream frame' false events'
      r.outcome = r'.outcome ∧
        r.paintings.getLast?.map Painting.html = r'.paintings.getLast?.map Painting.html := by
  refine ⟨fun texts h => h.completes_text frame, fun bytes h => ?_, fun frame' events' h => ?_⟩
  · have hlossy := Text.Utf8Reader.lossy_push bytes.flatten
    exact ⟨_, fun cs => ⟨fun hcs => hcs.unique hlossy, fun hcs => hcs ▸ hlossy⟩,
      h.completes_bytes hlossy frame⟩
  · suffices h : ∃ text, Completes (paintStream frame false events) (duration events) text ∧
        Completes (paintStream frame' false events') (duration events') text by
      obtain ⟨text, hcompletes, hcompletes'⟩ := h
      exact ⟨hcompletes.outcome.trans hcompletes'.outcome.symm,
        hcompletes.getLast?_paintings.trans hcompletes'.getLast?_paintings.symm⟩
    cases h with
    | text htexts htexts' heq =>
      exact ⟨_, htexts.completes_text frame, heq ▸ htexts'.completes_text frame'⟩
    | @bytes bytes _ hbytes hbytes' heq =>
      have hlossy := Text.Utf8Reader.lossy_push bytes.flatten
      exact ⟨_, hbytes.completes_bytes hlossy frame,
        hbytes'.completes_bytes (heq ▸ hlossy) frame'⟩

/-- A star cut into bytes, at two speeds. -/
theorem paintStream_completes_star :
    let events : List TimedEvent := [⟨0, .bytes [0xE2]⟩, ⟨20, .bytes [0x98, 0x85]⟩, ⟨5, .pause⟩]
    let events' : List TimedEvent := [⟨3, .bytes [0xE2, 0x98]⟩, ⟨0, .bytes [0x85]⟩]
    SameContent events events' ∧
      (paintStream 16 false events).outcome = (paintStream 1 false events').outcome :=
  have h := SameContent.bytes (.chunk 0 [0xE2] (.chunk 20 [0x98, 0x85] (.pause 5 .done)))
    (.chunk 3 [0xE2, 0x98] (.chunk 0 [0x85] .done)) rfl
  ⟨h, ((paintStream_completes 16 _).2.2 1 _ h).1⟩

end StreamedUi.Paint
